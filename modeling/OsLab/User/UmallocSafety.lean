import OsLab.User.UmallocLayout
import Mathlib.Dynamics.PeriodicPts.Defs

/-!
The allocator over every run of a program. The blocks that it returns do not overlap, every call
returns, and a request fails only where no free stretch of memory is long enough.
-/

namespace OsLab.User.Umalloc

open OsLab.Library

def Kept (s t : Heap) (used : List (ℕ × ℕ)) : Prop :=
  ∀ u ∈ used, ∀ x, u.1 < x → x < u.2 → t.ptr x = s.ptr x ∧ t.size x = s.size x

theorem Kept.trans {s m t : Heap} {used : List (ℕ × ℕ)} (one : Kept s m used)
    (two : Kept m t used) : Kept s t used := fun u among x low high =>
  ⟨(two u among x low high).1.trans (one u among x low high).1,
    (two u among x low high).2.trans (one u among x low high).2⟩

namespace Layout

variable {base n : ℕ} {s t : Heap} {nodes used : List (ℕ × ℕ)} {a b p : ℕ × ℕ}

theorem interior (layout : Layout base s nodes used) (among : b ∈ used) {x : ℕ} (low : b.1 < x)
    (high : x < b.2) : ∀ a ∈ nodes, x ≠ a.1 ∧ (a.1 ≤ x → a.2 ≤ x) := by
  intro a member
  have range := layout.busy b among
  have off := layout.across b among a member
  have proper := layout.separated.proper a member
  simp only [Apart] at off
  rcases (layout.blocks a member).2 with rfl | real
  · dsimp only at off ⊢
    omega
  · omega

theorem kept_place (layout : Layout base s nodes (b :: used)) (member : p ∈ nodes)
    (apart : p.1 ≠ b.1) : Kept s (s.place b.1 p.1) used := by
  intro u among x low high
  have range := layout.busy b List.mem_cons_self
  have first := (layout.interior (List.mem_cons_of_mem _ among) low high p member).1
  have second : x ≠ b.1 := by
    have off := (List.pairwise_cons.mp layout.apart).1 u among
    simp only [Apart] at off
    omega
  rw [s.place_ptr apart, s.place_size apart, Function.update_of_ne first,
    Function.update_of_ne second, Function.update_of_ne first, Function.update_of_ne second]
  exact ⟨rfl, rfl⟩

theorem free (layout : Layout base s nodes (b :: used)) : ∃ nodes' t, Layout base t nodes' used ∧
    Kept s t used ∧ t.live = s.live ∧ t.core = s.core ∧ t.brk = s.brk ∧
    (∀ x, covers nodes' x ↔ covers nodes x ∨ (b.1 ≤ x ∧ x < b.2)) ∧
    ∀ fuel, nodes.length ≤ fuel → s.free (b.1 + 16) fuel = some t := by
  obtain ⟨-, start, proper, -⟩ := layout.busy b List.mem_cons_self
  obtain ⟨front, p, back, split, low, high, found⟩ := layout.search ⟨start, proper⟩
    (layout.across b List.mem_cons_self)
  have member : p ∈ nodes := by simp [split]
  have separated : Separated (front ++ p :: back) := split ▸ layout.separated
  obtain ⟨-, brk, live, core⟩ := s.place_rest b.1 p.1
  refine ⟨_, _, layout.release split low high,
    layout.kept_place member (layout.apart_of_busy member), live, core, brk, fun x => ?_, fun fuel enough => ?_⟩
  · rw [separated.covers_insert proper.le high, split]
  · rw [Heap.free, Nat.add_sub_cancel, found fuel enough]
    rfl

theorem grow (layout : Layout base s nodes used) (nu : ℕ) (some : 0 < nu)
    (bound : s.brk + 16 * nu ≤ 68719476736) :
    Layout base { s with
      size := Function.update s.size s.brk nu
      brk := s.brk + 16 * nu
      core := (s.brk, s.brk + 16 * nu) :: s.core } nodes ((s.brk, s.brk + 16 * nu) :: used) := by
  have start := layout.brk
  have low : ∀ a ∈ nodes, a.2 ≤ s.brk ∧ a.1 ≠ s.brk := by
    intro a member
    rcases (layout.blocks a member).2 with rfl | real
    · dsimp only
      omega
    · omega
  refine ⟨layout.positive, layout.head, layout.ring, layout.separated, layout.freep,
    fun a member => ?_, fun u among => ?_, ?_, fun u among a member => ?_, fun x => ?_, ?_⟩
  · obtain ⟨stop, kind⟩ := layout.blocks a member
    refine ⟨?_, kind.imp_right fun real => ?_⟩
    · simp only [Heap.stop] at stop ⊢
      rwa [Function.update_of_ne (low a member).2]
    · dsimp only
      omega
  · rcases List.mem_cons.mp among with rfl | old
    · refine ⟨?_, ?_, ?_, le_rfl⟩
      · simp only [Heap.stop, Function.update_self]
      · exact start.1
      · dsimp only
        omega
    · obtain ⟨stop, range⟩ := layout.busy u old
      simp only [Heap.stop] at stop ⊢
      rw [Function.update_of_ne (by omega)]
      exact ⟨stop, range.1, range.2.1, by omega⟩
  · refine List.pairwise_cons.mpr ⟨fun u among => .inr ?_, layout.apart⟩
    exact (layout.busy u among).2.2.2
  · rcases List.mem_cons.mp among with rfl | old
    · exact .inr (low a member).1
    · exact layout.across u old a member
  · rw [covers_cons, covers_cons, layout.core]
    tauto
  · dsimp only
    omega

theorem room_of_span (layout : Layout base s nodes used) (member : a ∈ nodes) {k x : ℕ}
    (low : a.1 ≤ x) (high : x + 16 * k ≤ a.2) : k ≤ s.size a.1 := by
  have stop := (layout.blocks a member).1
  simp only [Heap.stop] at stop
  omega

theorem morecore_refused (s : Heap) (fuel : ℕ) (small : 16 * max n 4096 < 2147483648) :
    s.morecore n fuel false = some (s, 0) := by
  have converted : toInt (max n 4096 * 16) = (max n 4096 * 16 : ℕ) := by
    have low : uint (max n 4096 * 16) = max n 4096 * 16 := by
      unfold uint
      omega
    rw [toInt, low, if_pos (by omega)]
  have refused : s.sbrk (toInt (max n 4096 * 16)) false = none := by
    rw [Heap.sbrk, if_pos ⟨by rw [converted]; omega, rfl⟩]
  simp only [Heap.morecore, refused]

theorem morecore (layout : Layout base s nodes used)
    (small : 16 * max n 4096 < 2147483648) (bound : s.brk + 16 * max n 4096 ≤ 68719476736) :
    ∃ nodes' t, Layout base t nodes' used ∧ Kept s t used ∧ t.live = s.live ∧ t.freep ≠ 0 ∧
      (∃ a ∈ nodes', n ≤ t.size a.1) ∧
      ∀ fuel, nodes.length ≤ fuel → s.morecore n fuel true = some (t, t.freep) := by
  have grown := layout.grow (max n 4096) (by omega) bound
  obtain ⟨nodes', t, after, kept, live, -, -, covered, freed⟩ := grown.free
  have converted : toInt (max n 4096 * 16) = (max n 4096 * 16 : ℕ) := by
    have low : uint (max n 4096 * 16) = max n 4096 * 16 := by
      unfold uint
      omega
    rw [toInt, low, if_pos (by omega)]
  have given : s.sbrk (toInt (max n 4096 * 16)) true =
      some (s.brk, { s with brk := s.brk + 16 * max n 4096 }) := by
    rw [Heap.sbrk, if_neg (by simp), converted, if_pos (by omega)]
    congr 3
    omega
  have first : Kept s { s with
      size := Function.update s.size s.brk (max n 4096)
      brk := s.brk + 16 * max n 4096
      core := (s.brk, s.brk + 16 * max n 4096) :: s.core } used := by
    intro u among x low high
    have range := layout.busy u among
    exact ⟨rfl, Function.update_of_ne (by omega) ..⟩
  refine ⟨nodes', t, after, first.trans kept, live, ?_, ?_, fun fuel enough => ?_⟩
  · obtain ⟨a, member, same⟩ := List.mem_map.mp after.freep
    have low := after.base_le member
    have positive := after.positive
    omega
  · obtain ⟨a, member, low, high⟩ := after.separated.within
      (x := s.brk) (z := s.brk + 16 * max n 4096) (by omega)
      fun y low high => (covered y).mpr (.inr ⟨low, high⟩)
    exact ⟨a, member, (le_max_left n 4096).trans (after.room_of_span member low high)⟩
  · have result := freed fuel enough
    simp only [Heap.morecore, given]
    have same : (({ s with brk := s.brk + 16 * max n 4096 } : Heap).setSize s.brk (max n 4096)) =
        { s with size := Function.update s.size s.brk (max n 4096)
                 brk := s.brk + 16 * max n 4096 } := rfl
    rw [same]
    dsimp only at result ⊢
    rw [result]
    rfl

/-- Where no block is large enough, the search asks for memory. -/
def refill (granted : Bool) (n fuel : ℕ) (s : Heap) : Option (Heap × ℕ) :=
  match s.morecore n fuel granted with
  | none => none
  | some (t, p) => if p = 0 then some (t, 0) else Heap.find granted n fuel t p (t.ptr p)

theorem scan (layout : Layout base s nodes used) (granted : Bool) {k prev x : ℕ}
    (known : prev ∈ nodes.map Prod.fst) (link : s.ptr prev = x) (last : s.ptr^[k] x = s.freep) :
    (∃ q, ∃ a ∈ nodes, q ∈ nodes.map Prod.fst ∧ s.ptr q = a.1 ∧ n ≤ s.size a.1 ∧
      ∀ fuel, Heap.find granted n (fuel + k + 1) s prev x = some (s.take n q a.1)) ∨
    ∃ j, j ≤ k ∧ s.ptr^[j] x = s.freep ∧ (∀ i, i ≤ j → s.size (s.ptr^[i] x) < n) ∧
      ∀ fuel, Heap.find granted n (fuel + k + 1) s prev x = refill granted n (fuel + (k - j)) s := by
  have node : x ∈ nodes.map Prod.fst := link ▸ layout.ring.mem known
  induction k generalizing prev x with
  | zero =>
      by_cases room : n ≤ s.size x
      · obtain ⟨a, member, rfl⟩ := List.mem_map.mp node
        exact .inl ⟨prev, a, member, known, link, room, fun fuel => by rw [Heap.find, if_pos room]⟩
      · refine .inr ⟨0, le_rfl, last, fun i low => ?_, fun fuel => ?_⟩
        · obtain rfl : i = 0 := by omega
          exact not_le.mp room
        · rw [Heap.find, if_neg room, if_pos (show x = s.freep from last)]
          rfl
  | succ k ih =>
      by_cases room : n ≤ s.size x
      · obtain ⟨a, member, rfl⟩ := List.mem_map.mp node
        exact .inl ⟨prev, a, member, known, link, room, fun fuel => by rw [Heap.find, if_pos room]⟩
      · by_cases here : x = s.freep
        · refine .inr ⟨0, Nat.zero_le _, here, fun i low => ?_, fun fuel => ?_⟩
          · obtain rfl : i = 0 := by omega
            exact not_le.mp room
          · rw [Heap.find, if_neg room, if_pos here]
            rfl
        · have step : ∀ fuel, Heap.find granted n (fuel + (k + 1) + 1) s prev x =
              Heap.find granted n (fuel + k + 1) s x (s.ptr x) := fun fuel => by
            rw [Heap.find, if_neg room, if_neg here]
            rfl
          rcases ih node rfl last (layout.ring.mem node) with
            ⟨q, a, member, among, linked, enough, found⟩ | ⟨j, low, ends, none, found⟩
          · exact .inl ⟨q, a, member, among, linked, enough,
              fun fuel => (step fuel).trans (found fuel)⟩
          · refine .inr ⟨j + 1, by omega, ends, fun i bound => ?_, fun fuel => ?_⟩
            · cases i with
              | zero => exact not_le.mp room
              | succ i => exact none i (by omega)
            · rw [step, found, Nat.add_sub_add_right]

end Layout

namespace Heap

variable {s t : Heap} {fuel n ap : ℕ} {granted : Bool}

theorem free_more (freed : s.free ap fuel = some t) (more : ℕ) :
    s.free ap (fuel + more) = some t := by
  obtain ⟨p, found, rfl⟩ := Option.map_eq_some_iff.mp freed
  rw [free, search, whileLoop_more found more]
  rfl

theorem morecore_more {result : Heap × ℕ} (given : s.morecore n fuel granted = some result)
    (more : ℕ) : s.morecore n (fuel + more) granted = some result := by
  unfold morecore at given ⊢
  dsimp only at given ⊢
  split at given
  · exact given
  · obtain ⟨t, freed, same⟩ := Option.map_eq_some_iff.mp given
    rw [free_more freed more]
    exact congrArg some same

theorem find_more {result : Heap × ℕ} {prev p : ℕ}
    (found : find granted n fuel s prev p = some result) (more : ℕ) :
    find granted n (fuel + more) s prev p = some result := by
  induction fuel generalizing s prev p with
  | zero => simp [find] at found
  | succ fuel ih =>
      rw [Nat.succ_add]
      rw [find] at found ⊢
      split at found
      · rename_i room
        rwa [if_pos room]
      · rename_i room
        rw [if_neg room]
        split at found
        · rename_i last
          rw [if_pos last]
          split at found
          · cases found
          · rename_i t p given
            rw [morecore_more given more]
            dsimp only
            split at found
            · rename_i refused
              rwa [if_pos refused]
            · rename_i granted
              rw [if_neg granted]
              exact ih found
        · rename_i last
          rw [if_neg last]
          exact ih found

end Heap

namespace Layout

variable {base n q : ℕ} {s t : Heap} {nodes used : List (ℕ × ℕ)} {p : ℕ × ℕ}

theorem kept_take (layout : Layout base s nodes used) (member : p ∈ nodes)
    (prev : q ∈ nodes.map Prod.fst) (room : n ≤ s.size p.1) (some : 0 < n) :
    Kept s (s.take n q p.1).1 used := by
  intro u among x low high
  have inside := layout.interior among low high
  obtain ⟨d, node, rfl⟩ := List.mem_map.mp prev
  have first := (inside d node).1
  have second := inside p member
  have stop := (layout.blocks p member).1
  simp only [Heap.stop] at stop
  unfold Heap.take
  split
  · exact ⟨Function.update_of_ne first .., rfl⟩
  · refine ⟨rfl, ?_⟩
    have third : x ≠ p.1 + 16 * (s.size p.1 - n) := by omega
    exact (Function.update_of_ne third ..).trans (Function.update_of_ne second.1 ..)

theorem live_take (s : Heap) (n q p : ℕ) : (s.take n q p).1.live = s.live ∧
    (s.take n q p).1.brk = s.brk ∧ (s.take n q p).1.core = s.core := by
  unfold Heap.take
  split <;> exact ⟨rfl, rfl, rfl⟩

/-- The search goes round the whole ring before it asks for memory. -/
theorem round (layout : Layout base s nodes used) (granted : Bool) (n : ℕ) :
    (∃ q, ∃ a ∈ nodes, q ∈ nodes.map Prod.fst ∧ s.ptr q = a.1 ∧ n ≤ s.size a.1 ∧
      ∃ k, ∀ fuel, Heap.find granted n (fuel + k) s s.freep (s.ptr s.freep) =
        some (s.take n q a.1)) ∨
    (∀ a ∈ nodes, s.size a.1 < n) ∧ ∃ k more, ∀ fuel,
      Heap.find granted n (fuel + k) s s.freep (s.ptr s.freep) =
        refill granted n (fuel + more) s := by
  obtain ⟨k, -, last⟩ := layout.ring.reach (layout.ring.mem layout.freep) layout.freep
  rcases layout.scan (n := n) granted layout.freep rfl last with
    ⟨q, a, member, among, link, room, found⟩ | ⟨j, -, ends, none, found⟩
  · exact .inl ⟨q, a, member, among, link, room, k + 1, found⟩
  · refine .inr ⟨fun a member => ?_, k + 1, k - j, found⟩
    obtain ⟨i, -, reached⟩ := layout.ring.reach (layout.ring.mem layout.freep)
      (List.mem_map_of_mem (f := Prod.fst) member)
    have periodic : Function.IsPeriodicPt s.ptr (j + 1) (s.ptr s.freep) := by
      rw [Function.IsPeriodicPt, Function.IsFixedPt, Function.iterate_succ_apply', ends]
    have small := none (i % (j + 1)) (Nat.lt_succ_iff.mp (Nat.mod_lt _ (Nat.succ_pos j)))
    rwa [periodic.iterate_mod_apply, reached] at small

/-- `malloc` on a ring: it returns, and either finds a block, or has asked for memory in vain. -/
theorem find (layout : Layout base s nodes used) (granted : Bool) (some : 0 < n)
    (small : 16 * max n 4096 < 2147483648) (bound : s.brk + 16 * max n 4096 ≤ 68719476736) :
    ∃ t r k, (∀ fuel, Heap.find granted n (fuel + k) s s.freep (s.ptr s.freep) =
        Option.some (t, r)) ∧
      Kept s t used ∧ t.live = s.live ∧
      ((r = 0 ∧ t = s ∧ granted = false ∧ ∀ a ∈ nodes, s.size a.1 < n) ∨
        ∃ nodes' x, r = x + 16 ∧ Layout base t nodes' ((x, x + 16 * n) :: used) ∧
          (granted = false → ∃ a ∈ nodes, n ≤ s.size a.1) ∧
          ((∃ a ∈ nodes, n ≤ s.size a.1) → t.brk = s.brk ∧ t.core = s.core)) := by
  rcases layout.round granted n with
    ⟨q, a, member, among, link, room, k, found⟩ | ⟨none, k, more, asks⟩
  · obtain ⟨nodes', x, result, after⟩ := layout.take member among link some room
    obtain ⟨live, brk, core⟩ := live_take s n q a.1
    exact ⟨_, _, k, found, layout.kept_take member among room some, live,
      .inr ⟨nodes', x, result, after, fun _ => ⟨a, member, room⟩, fun _ => ⟨brk, core⟩⟩⟩
  · cases granted with
    | false =>
        refine ⟨s, 0, k, fun fuel => ?_, fun _ _ _ _ _ => ⟨rfl, rfl⟩, rfl,
          .inl ⟨rfl, rfl, rfl, none⟩⟩
        rw [asks, refill, morecore_refused s _ small]
        rfl
    | true =>
        obtain ⟨middle, m, after, kept, live, alive, ⟨large, big, fits⟩, given⟩ :=
          layout.morecore small bound
        rcases after.round true n with ⟨q, a, member, among, link, room, j, found⟩ | ⟨short, -⟩
        · obtain ⟨nodes', x, result, last⟩ := after.take member among link some room
          refine ⟨_, _, nodes.length + j + k, fun fuel => ?_,
            kept.trans (after.kept_take member among room some),
            (live_take m n q a.1).1.trans live, .inr ⟨nodes', x, result, last, by simp, ?_⟩⟩
          · rw [← Nat.add_assoc, asks, refill, given _ (by omega)]
            dsimp only
            rw [if_neg alive, show fuel + (nodes.length + j) + more =
              (fuel + nodes.length + more) + j by omega, found]
          · rintro ⟨a, member, room⟩
            exact absurd room (not_le.mpr (none a member))
        · exact absurd fits (not_le.mpr (short large big))

theorem congr (layout : Layout base s nodes used)
    (headers : ∀ x, (∃ a ∈ nodes, x = a.1) ∨ (∃ u ∈ used, x = u.1) →
      t.ptr x = s.ptr x ∧ t.size x = s.size x)
    (freep : t.freep = s.freep) (core : t.core = s.core)
    (brk : s.brk ≤ t.brk ∧ t.brk ≤ 68719476736) : Layout base t nodes used where
  positive := layout.positive
  head := layout.head
  ring := layout.ring.congr fun x member => by
    obtain ⟨a, node, rfl⟩ := List.mem_map.mp member
    exact (headers a.1 (.inl ⟨a, node, rfl⟩)).1
  separated := layout.separated
  freep := freep ▸ layout.freep
  blocks a member := by
    have own := layout.blocks a member
    rw [Heap.stop, (headers a.1 (.inl ⟨a, member, rfl⟩)).2]
    exact ⟨own.1, own.2.imp_right fun real => ⟨real.1, real.2.1, real.2.2.trans brk.1⟩⟩
  busy u among := by
    have own := layout.busy u among
    rw [Heap.stop, (headers u.1 (.inr ⟨u, among, rfl⟩)).2]
    exact ⟨own.1, own.2.1, own.2.2.1, own.2.2.2.trans brk.1⟩
  apart := layout.apart
  across := layout.across
  core := core ▸ layout.core
  brk := ⟨layout.brk.1.trans brk.1, brk.2⟩

end Layout

namespace Heap

def block (s : Heap) (l : ℕ × ℕ) : ℕ × ℕ := (l.1 - 16, s.stop (l.1 - 16))

/-- Memory that `sbrk` has given and that is in no block in use. -/
def Free (s : Heap) (x : ℕ) : Prop := covers s.core x ∧ ¬ covers (s.live.map s.block) x

end Heap

structure Inv (base : ℕ) (s : Heap) : Prop where
  bounds : 0 < base ∧ base + 16 ≤ s.brk ∧ s.brk ≤ 68719476736
  layout : (s.freep = 0 ∧ s.live = [] ∧ s.core = []) ∨
    s.freep ≠ 0 ∧ ∃ nodes, Layout base s nodes (s.live.map s.block)
  fits : ∀ l ∈ s.live, 16 ≤ l.1 ∧ l.1 + l.2 ≤ (s.block l).2

variable {base fuel nbytes ap : ℕ} {s t : Heap} {nodes used : List (ℕ × ℕ)} {granted : Bool}

theorem nunits_eq (small : nbytes ≤ 2147483616) : nunits nbytes = (nbytes + 15) / 16 + 1 ∧
    0 < nunits nbytes ∧ nbytes + 16 ≤ 16 * nunits nbytes ∧
    16 * max (nunits nbytes) 4096 < 2147483648 := by
  have value : nunits nbytes = (nbytes + 15) / 16 + 1 := by
    unfold nunits uint
    omega
  omega

theorem Layout.boot (positive : 0 < base) (low : base + 16 ≤ s.brk) (high : s.brk ≤ 68719476736)
    (core : s.core = []) :
    Layout base { (s.setPtr base base).setSize base 0 with freep := base } [(base, base)] [] where
  positive := positive
  head := rfl
  ring := by
    rw [List.map_singleton]
    exact List.isChain_pair.mpr (Function.update_self ..)
  separated := ⟨List.pairwise_singleton _ _, by simp⟩
  freep := by simp
  blocks a member := by
    obtain rfl := List.mem_singleton.mp member
    simp [Heap.stop, Heap.setSize]
  busy := by simp
  apart := List.Pairwise.nil
  across := by simp
  core x := by
    show covers s.core x ↔ _
    rw [core]
    simp [covers]
  brk := ⟨low, high⟩

theorem Inv.init (inv : Inv base s) : ∃ nodes,
    Layout base (s.init base) nodes (s.live.map s.block) ∧ (s.init base).live = s.live ∧
      (s.init base).brk = s.brk ∧ (s.init base).core = s.core ∧
      Kept s (s.init base) (s.live.map s.block) := by
  rcases inv.layout with ⟨null, live, core⟩ | ⟨some, nodes, layout⟩
  · rw [Heap.init, if_pos null, live]
    exact ⟨_, .boot inv.bounds.1 inv.bounds.2.1 inv.bounds.2.2 core, live, rfl, rfl,
      fun _ among => absurd among List.not_mem_nil⟩
  · rw [Heap.init, if_neg some]
    exact ⟨nodes, layout, rfl, rfl, rfl, fun _ _ _ _ _ => ⟨rfl, rfl⟩⟩

theorem blocks_eq (used : List (ℕ × ℕ))
    (layout : Layout base t nodes (used ++ s.live.map s.block)) (live : t.live = s.live) :
    t.live.map t.block = s.live.map s.block := by
  rw [live]
  refine List.map_congr_left fun l member => ?_
  have own := (layout.busy (s.block l) (List.mem_append_right _ (List.mem_map_of_mem member))).1
  exact Prod.ext rfl own.symm

theorem Layout.freep_ne (layout : Layout base s nodes used) : s.freep ≠ 0 := by
  obtain ⟨a, member, same⟩ := List.mem_map.mp layout.freep
  have low := layout.base_le member
  have positive := layout.positive
  omega

theorem Inv.of_layout (layout : Layout base s nodes (s.live.map s.block))
    (fits : ∀ l ∈ s.live, 16 ≤ l.1 ∧ l.1 + l.2 ≤ (s.block l).2) : Inv base s :=
  ⟨⟨layout.positive, layout.brk⟩, .inr ⟨layout.freep_ne, nodes, layout⟩, fits⟩

theorem Inv.malloc (inv : Inv base s) (granted : Bool) (small : nbytes ≤ 2147483616)
    (bound : s.brk + 16 * max (nunits nbytes) 4096 ≤ 68719476736) :
    ∃ t r k, (∀ fuel, s.malloc base nbytes (fuel + k) granted = some (t, r)) ∧
      Kept s t (s.live.map s.block) ∧ t.live = s.live ∧
      ((r = 0 ∧ Inv base t ∧ granted = false ∧
          ¬ ∃ x, ∀ y, x ≤ y → y < x + 16 * nunits nbytes → s.Free y) ∨
        r ≠ 0 ∧ Inv base { t with live := (r, nbytes) :: t.live } ∧
          (granted = false → ∃ x, ∀ y, x ≤ y → y < x + 16 * nunits nbytes → s.Free y) ∧
          ((∃ x, ∀ y, x ≤ y → y < x + 16 * nunits nbytes → s.Free y) →
            t.brk = s.brk ∧ t.core = s.core)) := by
  obtain ⟨-, some, room, units⟩ := nunits_eq small
  obtain ⟨nodes, layout, live, brk, core, same⟩ := inv.init
  have free : ∀ y, s.Free y ↔ covers nodes y := by
    intro y
    rw [Heap.Free, ← core, layout.core]
    constructor
    · rintro ⟨node | busy, out⟩
      · exact node
      · exact absurd busy out
    · rintro ⟨a, member, low, high⟩
      refine ⟨.inl ⟨a, member, low, high⟩, ?_⟩
      rintro ⟨u, among, under, above⟩
      have off := layout.across u among a member
      simp only [Apart] at off
      omega
  have stretch : (∃ x, ∀ y, x ≤ y → y < x + 16 * nunits nbytes → s.Free y) →
      ∃ a ∈ nodes, nunits nbytes ≤ (s.init base).size a.1 := by
    rintro ⟨x, covered⟩
    obtain ⟨a, member, low, high⟩ := layout.separated.within (x := x)
      (z := x + 16 * nunits nbytes) (by omega) fun y low high => (free y).mp (covered y low high)
    exact ⟨a, member, layout.room_of_span member low high⟩
  obtain ⟨t, r, k, found, kept, lives, outcome⟩ :=
    layout.find granted some units (by rw [brk]; exact bound)
  refine ⟨t, r, k, found, same.trans kept, lives.trans live, ?_⟩
  rcases outcome with ⟨zero, rfl, refused, short⟩ | ⟨nodes', x, rfl, after, reason, grows⟩
  · refine .inl ⟨zero, ?_, refused, fun free => ?_⟩
    · have blocks := blocks_eq (s := s) [] layout live
      refine .of_layout (blocks ▸ layout) fun l member => ?_
      have own := (List.map_inj_left.mp (live ▸ blocks)) l (live ▸ member)
      rw [own]
      exact inv.fits l (live ▸ member)
    · obtain ⟨a, member, enough⟩ := stretch free
      exact absurd enough (not_le.mpr (short a member))
  · have alive := lives.trans live
    have blocks := blocks_eq (s := s) [(x, x + 16 * nunits nbytes)] after alive
    have own := (after.busy _ List.mem_cons_self).1
    have fresh : t.block (x + 16, nbytes) = (x, x + 16 * nunits nbytes) := by
      rw [Heap.block, Nat.add_sub_cancel]
      exact Prod.ext rfl own.symm
    refine .inr ⟨by omega, ?_, fun refused => ?_, fun free => ?_⟩
    · have whole : ((x + 16, nbytes) :: t.live).map t.block =
          (x, x + 16 * nunits nbytes) :: s.live.map s.block := by
        rw [List.map_cons, fresh, blocks]
      refine @Inv.of_layout base { t with live := (x + 16, nbytes) :: t.live } nodes' ?_
        fun l member => ?_
      · show Layout base { t with live := (x + 16, nbytes) :: t.live } nodes'
          (((x + 16, nbytes) :: t.live).map t.block)
        rw [whole]
        exact { after with }
      · show 16 ≤ l.1 ∧ l.1 + l.2 ≤ (t.block l).2
        rcases List.mem_cons.mp member with rfl | old
        · rw [fresh]
          dsimp only
          omega
        · rw [alive] at old
          have equal := (List.map_inj_left.mp (alive ▸ blocks)) l old
          rw [equal]
          exact inv.fits l old
    · obtain ⟨a, member, enough⟩ := reason refused
      have stop := (layout.blocks a member).1
      rw [Heap.stop] at stop
      exact ⟨a.1, fun y low high => (free y).mpr ⟨a, member, low, by omega⟩⟩
    · obtain ⟨first, second⟩ := grows (stretch free)
      exact ⟨first.trans brk, second.trans core⟩

variable {label : Label}

theorem Inv.layout_of_live (inv : Inv base s) {l : ℕ × ℕ} (member : l ∈ s.live) :
    ∃ nodes, Layout base s nodes (s.live.map s.block) := by
  rcases inv.layout with ⟨-, none, -⟩ | ⟨-, found⟩
  · rw [none] at member
    exact absurd member List.not_mem_nil
  · exact found

theorem Inv.free (inv : Inv base s) {l : ℕ × ℕ} (first : s.live.find? (·.1 = ap) = some l) :
    ∃ t k, (∀ fuel, s.free ap (fuel + k) = some t) ∧
      Inv base { t with live := s.live.eraseP (·.1 = ap) } ∧
      Kept s t ((s.live.eraseP (·.1 = ap)).map s.block) ∧ t.live = s.live ∧ t.core = s.core := by
  obtain ⟨given, front, back, split, earlier⟩ := List.find?_eq_some_iff_append.mp first
  have same : l.1 = ap := by simpa using given
  have rest : s.live.eraseP (·.1 = ap) = front ++ back := by
    rw [split, List.eraseP_append_right _ (by simpa using earlier)]
    exact congrArg _ (List.eraseP_cons_of_pos given)
  have member : l ∈ s.live := by simp [split]
  obtain ⟨nodes, layout⟩ := inv.layout_of_live member
  have bound := (inv.fits l member).1
  have permuted : (s.live.map s.block).Perm (s.block l :: (front ++ back).map s.block) := by
    rw [split, ← List.map_cons]
    exact List.perm_middle.map _
  obtain ⟨nodes', t, after, kept, live, core, -, -, freed⟩ := (layout.perm permuted).free
  refine ⟨t, nodes.length, fun fuel => ?_, ?_, rest ▸ kept, live, core⟩
  · have result := freed (fuel + nodes.length) (Nat.le_add_left ..)
    rwa [Heap.block, show l.1 - 16 + 16 = ap by omega] at result
  · rw [rest]
    have blocks : (front ++ back).map t.block = (front ++ back).map s.block := by
      refine List.map_congr_left fun m among => ?_
      have own := (after.busy (s.block m) (List.mem_map_of_mem among)).1
      exact Prod.ext rfl own.symm
    refine @Inv.of_layout base { t with live := front ++ back } nodes' ?_ fun m among => ?_
    · show Layout base { t with live := front ++ back } nodes' ((front ++ back).map t.block)
      rw [blocks]
      exact { after with }
    · show 16 ≤ m.1 ∧ m.1 + m.2 ≤ (t.block m).2
      rw [(List.map_inj_left.mp blocks) m among]
      refine inv.fits m ?_
      rw [split]
      simp only [List.mem_append, List.mem_cons] at among ⊢
      tauto

theorem Inv.write (inv : Inv base s) {ptr size : ℕ → ℕ}
    (allowed : Disciplined s (.write ptr size)) : Inv base { s with ptr := ptr, size := size } := by
  rcases inv.layout with ⟨null, live, core⟩ | ⟨-, nodes, layout⟩
  · exact ⟨inv.bounds, .inl ⟨null, live, core⟩,
      fun l member => absurd (live ▸ member) List.not_mem_nil⟩
  · have clear : ∀ x, (∃ a ∈ nodes, x = a.1) ∨ (∃ u ∈ s.live.map s.block, x = u.1) →
        ptr x = s.ptr x ∧ size x = s.size x := by
      intro x header
      refine allowed x fun l member meets => ?_
      obtain ⟨low, high⟩ := meets
      obtain ⟨start, room⟩ := inv.fits l member
      have among : s.block l ∈ s.live.map s.block := List.mem_map_of_mem member
      rcases header with ⟨a, node, rfl⟩ | ⟨u, other, rfl⟩
      · have within : (s.block l).1 < a.1 ∧ a.1 < (s.block l).2 := by
          rw [show (s.block l).1 = l.1 - 16 from rfl]
          omega
        exact (layout.interior among within.1 within.2 a node).1 rfl
      · have within : (s.block l).1 < u.1 ∧ u.1 < (s.block l).2 := by
          rw [show (s.block l).1 = l.1 - 16 from rfl]
          omega
        by_cases same : u = s.block l
        · rw [same] at within
          omega
        · have symmetric : Std.Symm Apart := ⟨fun _ _ => Or.symm⟩
          have off := layout.apart.forall other among same
          have proper := layout.busy u other
          simp only [Apart] at off
          omega
    have after : Layout base { s with ptr := ptr, size := size } nodes (s.live.map s.block) :=
      layout.congr clear rfl rfl ⟨le_rfl, layout.brk.2⟩
    have blocks := blocks_eq [] after rfl
    refine @Inv.of_layout base { s with ptr := ptr, size := size } nodes ?_ fun l member => ?_
    · rw [blocks]
      exact after
    · rw [(List.map_inj_left.mp blocks) l member]
      exact inv.fits l member

theorem Inv.sbrk (inv : Inv base s) {n : ℕ} (bound : s.brk + n ≤ 68719476736) :
    Inv base { s with brk := s.brk + n } := by
  refine ⟨⟨inv.bounds.1, inv.bounds.2.1.trans (Nat.le_add_right ..), bound⟩, ?_, inv.fits⟩
  refine inv.layout.imp_right fun ⟨alive, nodes, layout⟩ => ⟨alive, nodes, ?_⟩
  exact layout.congr (fun _ _ => ⟨rfl, rfl⟩) rfl rfl ⟨Nat.le_add_right .., bound⟩

theorem step_malloc {r : Heap} {k : ℕ} (taken : s.step base fuel (.malloc nbytes granted) = some r)
    {t : Heap} {x : ℕ} (found : ∀ fuel, s.malloc base nbytes (fuel + k) granted = some (t, x)) :
    r = if x = 0 then t else { t with live := (x, nbytes) :: t.live } := by
  obtain ⟨⟨m, y⟩, ran, rfl⟩ := Option.map_eq_some_iff.mp taken
  have more := Heap.find_more ran k
  have same := found fuel
  rw [Heap.malloc] at same
  obtain ⟨rfl, rfl⟩ := Prod.mk.inj (Option.some.inj (more.symm.trans same))
  rfl

theorem step_free {r : Heap} {k : ℕ} (taken : s.step base fuel (.free ap) = some r)
    {t : Heap} (found : ∀ fuel, s.free ap (fuel + k) = some t) :
    r = { t with live := t.live.eraseP (·.1 = ap) } := by
  obtain ⟨m, ran, rfl⟩ := Option.map_eq_some_iff.mp taken
  rw [Option.some.inj ((Heap.free_more ran k).symm.trans (found fuel))]

theorem find_of_freed (given : Disciplined s (.free ap)) :
    ∃ l, s.live.find? (·.1 = ap) = some l := by
  obtain ⟨l, member, same⟩ := given
  exact Option.isSome_iff_exists.mp (List.find?_isSome.mpr ⟨l, member, by simpa using same⟩)

theorem Inv.step (inv : Inv base s) (taken : (disciplined base).step s label t) : Inv base t := by
  obtain ⟨allowed, fuel, ran⟩ := taken
  cases label with
  | malloc nbytes granted =>
      obtain ⟨m, r, k, found, -, -, outcome⟩ := inv.malloc granted allowed.1 allowed.2
      rw [step_malloc ran found]
      rcases outcome with ⟨zero, after, -⟩ | ⟨some, after, -⟩
      · rwa [if_pos zero]
      · rwa [if_neg some]
  | free ap =>
      obtain ⟨l, first⟩ := find_of_freed allowed
      obtain ⟨m, k, found, after, -, live, -⟩ := inv.free first
      rw [step_free ran found, live]
      exact after
  | write ptr size =>
      rw [← Option.some.inj ran]
      exact inv.write allowed
  | sbrk n =>
      rw [← Option.some.inj ran]
      exact inv.sbrk allowed

theorem reachable_inv (reachable : (disciplined base).Reachable s) : Inv base s :=
  reachable.invariant
    (fun _ booted => ⟨⟨booted.positive, booted.brk⟩, .inl ⟨booted.freep, booted.live, booted.core⟩,
      fun _ member => absurd (booted.live ▸ member) List.not_mem_nil⟩)
    fun _ _ _ inv taken => inv.step taken

/-- The blocks returned do not overlap, each has the bytes that were asked for, every call returns,
and none changes a byte of a block in use. -/
theorem malloc_safe (reachable : (disciplined base).Reachable s) :
    (s.live.Pairwise fun l m => l.1 + l.2 + 16 ≤ m.1 ∨ m.1 + m.2 + 16 ≤ l.1) ∧
    (∀ l ∈ s.live, base + 32 ≤ l.1 ∧ l.1 + l.2 ≤ s.brk) ∧
    (∀ label, Disciplined s label → ∃ t, (system base).step s label t) ∧
    ∀ label t, (disciplined base).step s label t → (∀ ptr size, label ≠ .write ptr size) →
      ∀ l ∈ s.live, l ∈ t.live → ∀ x, Heap.Meets x l → t.ptr x = s.ptr x ∧ t.size x = s.size x := by
  have inv := reachable_inv reachable
  refine ⟨?_, fun l member => ?_, fun label allowed => ?_, ?_⟩
  · rcases inv.layout with ⟨-, none, -⟩ | ⟨-, nodes, layout⟩
    · rw [none]
      exact List.Pairwise.nil
    · refine (List.pairwise_map.mp layout.apart).imp_of_mem fun {l m} one two apart => ?_
      have first := inv.fits l one
      have second := inv.fits m two
      rcases apart with before | after
      · rw [show (s.block m).1 = m.1 - 16 from rfl] at before
        omega
      · rw [show (s.block l).1 = l.1 - 16 from rfl] at after
        omega
  · obtain ⟨nodes, layout⟩ := inv.layout_of_live member
    have fits := inv.fits l member
    have range := layout.busy (s.block l) (List.mem_map_of_mem member)
    rw [show (s.block l).1 = l.1 - 16 from rfl] at range
    omega
  · cases label with
    | malloc nbytes granted =>
        obtain ⟨t, r, k, found, -⟩ := inv.malloc granted allowed.1 allowed.2
        exact ⟨_, 0 + k, by rw [Heap.step, found 0]; rfl⟩
    | free ap =>
        obtain ⟨_, first⟩ := find_of_freed allowed
        obtain ⟨t, k, found, -⟩ := inv.free first
        exact ⟨_, 0 + k, by rw [Heap.step, found 0]; rfl⟩
    | write ptr size => exact ⟨_, 0, rfl⟩
    | sbrk n => exact ⟨_, 0, rfl⟩
  · rintro label t ⟨allowed, fuel, ran⟩ notWrite l member kept x ⟨low, high⟩
    obtain ⟨start, room⟩ := inv.fits l member
    have within : (s.block l).1 < x ∧ x < (s.block l).2 := by
      rw [show (s.block l).1 = l.1 - 16 from rfl]
      omega
    cases label with
    | malloc nbytes granted =>
        obtain ⟨m, r, k, found, same, -⟩ := inv.malloc granted allowed.1 allowed.2
        have unchanged := same _ (List.mem_map_of_mem member) x within.1 within.2
        rw [step_malloc ran found]
        split
        · exact unchanged
        · exact unchanged
    | free ap =>
        obtain ⟨d, first⟩ := find_of_freed allowed
        obtain ⟨m, k, found, -, same, live, -⟩ := inv.free first
        rw [step_free ran found, live] at kept ⊢
        exact same _ (List.mem_map_of_mem kept) x within.1 within.2
    | write ptr size => exact absurd rfl (notWrite ptr size)
    | sbrk n =>
        rw [← Option.some.inj ran]
        exact ⟨rfl, rfl⟩

def start : Heap := ⟨fun _ => 0, fun _ => 0, 0, 4096, [], []⟩

theorem start_boot : Boot 16 start := ⟨by decide, rfl, by decide, rfl, rfl⟩

theorem allowed_malloc (small : nbytes ≤ 2147483616)
    (bound : s.brk + 16 * max (nunits nbytes) 4096 ≤ 68719476736) (granted : Bool) :
    Disciplined s (.malloc nbytes granted) := ⟨small, bound⟩

/-! ### A run -/

def Heap.after (s : Heap) (label : Label) : Heap := (s.step 16 9 label).getD s

theorem after_step {label : Label} (returns : (s.step 16 9 label).isSome)
    (allowed : Disciplined s label) : (disciplined 16).step s label (s.after label) := by
  obtain ⟨t, ran⟩ := Option.isSome_iff_exists.mp returns
  refine ⟨allowed, 9, ?_⟩
  rw [Heap.after, ran, Option.getD_some]

def cut : Heap := (start.after (.malloc 30 true)).after (.malloc 20 true)

def whole : Heap := (cut.after (.free 69600)).after (.free 69552)

theorem cut_reachable : (disciplined 16).Reachable cut := by
  have first : (disciplined 16).Reachable (start.after (.malloc 30 true)) :=
    .step (.start start_boot) (after_step (by decide) (allowed_malloc (by decide) (by decide) true))
  exact .step first (after_step (by decide) (allowed_malloc (by decide) (by decide) true))

theorem whole_reachable : (disciplined 16).Reachable whole := by
  have first : (disciplined 16).Reachable (cut.after (.free 69600)) :=
    .step cut_reachable (after_step (by decide) ⟨(69600, 30), by decide, rfl⟩)
  exact .step first (after_step (by decide) ⟨(69552, 20), by decide, rfl⟩)

theorem malloc_safe_two : cut.live = [(69552, 20), (69600, 30)] ∧
    (cut.live.Pairwise fun l m => l.1 + l.2 + 16 ≤ m.1 ∨ m.1 + m.2 + 16 ≤ l.1) ∧
    ∀ x, Heap.Meets x (69552, 20) → (cut.after (.free 69600)).ptr x = cut.ptr x ∧
      (cut.after (.free 69600)).size x = cut.size x := by
  have freed : (disciplined 16).step cut (.free 69600) (cut.after (.free 69600)) :=
    after_step (by decide) ⟨(69600, 30), by decide, rfl⟩
  have safe := malloc_safe cut_reachable
  exact ⟨by decide, safe.1,
    safe.2.2.2 _ _ freed (by simp) (69552, 20) (by decide) (by decide)⟩

/-- `malloc` fails exactly where the kernel refuses and no free stretch of memory is long enough,
and asks the kernel only where there is none. -/
theorem malloc_complete (reachable : (disciplined base).Reachable s)
    (taken : (disciplined base).step s (.malloc nbytes granted) t) :
    (t.live = s.live ↔ granted = false ∧
      ¬ ∃ x, ∀ y, x ≤ y → y < x + 16 * nunits nbytes → s.Free y) ∧
    ((∃ x, ∀ y, x ≤ y → y < x + 16 * nunits nbytes → s.Free y) →
      t.brk = s.brk ∧ t.core = s.core) := by
  obtain ⟨allowed, fuel, ran⟩ := taken
  obtain ⟨m, r, k, found, -, live, outcome⟩ :=
    (reachable_inv reachable).malloc granted allowed.1 allowed.2
  rw [step_malloc ran found]
  rcases outcome with ⟨zero, -, refused, short⟩ | ⟨some, -, reason, grows⟩
  · rw [if_pos zero]
    exact ⟨⟨fun _ => ⟨refused, short⟩, fun _ => live⟩, fun free => absurd free short⟩
  · rw [if_neg some]
    have longer : (r, nbytes) :: m.live ≠ s.live := by
      rw [live]
      intro same
      have lengths := congrArg List.length same
      rw [List.length_cons] at lengths
      omega
    exact ⟨⟨fun same => absurd same longer, fun ⟨refused, short⟩ => absurd (reason refused) short⟩,
      grows⟩

/-- The kernel refuses: one unit more than the joined blocks have fails, and the whole of them, with
the neighbours that were freed, is found without asking. -/
theorem malloc_complete_whole :
    (whole.after (.malloc 65521 false)).live = whole.live ∧
      (¬ ∃ x, ∀ y, x ≤ y → y < x + 16 * nunits 65521 → whole.Free y) ∧
      (whole.after (.malloc 65520 false)).live = [(4112, 65520)] ∧
      ∃ x, ∀ y, x ≤ y → y < x + 16 * nunits 65520 → whole.Free y := by
  have long : (disciplined 16).step whole (.malloc 65521 false) (whole.after (.malloc 65521 false)) :=
    after_step (by decide) (allowed_malloc (by decide) (by decide) false)
  have fits : (disciplined 16).step whole (.malloc 65520 false) (whole.after (.malloc 65520 false)) :=
    after_step (by decide) (allowed_malloc (by decide) (by decide) false)
  have refused : (whole.after (.malloc 65521 false)).live = whole.live := by decide
  have found : (whole.after (.malloc 65520 false)).live = [(4112, 65520)] := by decide
  refine ⟨refused, ((malloc_complete whole_reachable long).1.mp refused).2, found, ?_⟩
  by_contra short
  have same := (malloc_complete whole_reachable fits).1.mpr ⟨rfl, short⟩
  rw [found] at same
  exact absurd same (by decide)

end OsLab.User.Umalloc
