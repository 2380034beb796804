import OsLab.Kernel.Buffers
import OsLab.Library.References

/-!
The buffer cache over every interleaving. A block is in at most one buffer, the reference counts
are right, and a buffer that is recycled is the one unused for longest.
-/

namespace OsLab.Kernel.Buffers

open OsLab.Library

variable {n m : ℕ} {D : Type} {s t : State n m D} {p q : Fin m} {b c : Fin n} {dev blockno : ℕ}

def Pc.uses : Pc n → List (Fin n)
  | .user => []
  | .acquiresleep b | .load b | .release b => [b]

namespace State

def refs (s : State n m D) (p : Fin m) : List (Fin n) := (s.pc p).uses ++ s.held p

/-- The list of the buffers, the latest used first. -/
structure Listed (s : State n m D) (order : List (Fin n)) : Prop where
  ring : s.links.Ring none (order.map some)
  all : ∀ b, b ∈ order
  recent : order.Pairwise fun b c => s.stamp c < s.stamp b

structure Inv (s : State n m D) : Prop where
  listed : ∃ order, s.Listed order
  stamp : ∀ b, s.stamp b ≤ s.clock
  counts : Counts (fun b => (s.buf b).refcnt) s.pins s.refs
  once : ∀ b c, (s.buf b).dev ≠ 0 → (s.buf b).dev = (s.buf c).dev →
    (s.buf b).blockno = (s.buf c).blockno → b = c
  locked : ∀ b p, s.lock b = some p ↔ s.pc p = .load b ∨ b ∈ s.held p
  nodup : ∀ p, (s.held p).Nodup
  apart : ∀ p b, s.pc p = .load b → b ∉ s.held p
  named : ∀ b, (s.buf b).refcnt ≠ 0 ∨ (s.buf b).valid = true → (s.buf b).dev ≠ 0
  loaded : ∀ p b, b ∈ s.held p → (s.buf b).valid = true

def Saved (s : State n m D) : Prop :=
  ∀ b, (s.buf b).valid = true → s.lock b = none → s.Clean b ∨ s.pins b ≠ 0

section Listed

variable {order : List (Fin n)}

theorem join_map_some (found : Option (Fin n)) : (found.map some).join = found := by
  cases found <;> rfl

theorem Listed.nodup (listed : s.Listed order) : order.Nodup :=
  (List.nodup_cons.mp listed.ring.nodup).2.of_map

theorem Listed.enough (listed : s.Listed order) : (order.map some).length < n + 1 := by
  have bound := listed.nodup.length_le_card
  rw [Fintype.card_fin] at bound
  rw [List.length_map]
  omega

theorem Listed.cached (listed : s.Listed order) (dev blockno : ℕ) :
    s.cached dev blockno = order.find? (s.names dev blockno) := by
  rw [State.cached, listed.ring.search_next _ listed.enough, List.find?_map]
  exact join_map_some _

theorem Listed.unused (listed : s.Listed order) :
    s.unused = order.reverse.find? fun b => (s.buf b).refcnt = 0 := by
  rw [State.unused, listed.ring.search_prev _ listed.enough, ← List.map_reverse, List.find?_map]
  exact join_map_some _

theorem Listed.front (listed : s.Listed order) (bound : ∀ c, s.stamp c ≤ s.clock) (b : Fin n)
    (links : t.links = (s.links.unlink (some b)).insert none (some b))
    (stamp : t.stamp = Function.update s.stamp b (s.clock + 1)) :
    ∃ order, t.Listed order := by
  obtain ⟨front, back, rfl⟩ := List.append_of_mem (listed.all b)
  have nodup := listed.nodup
  have ring := listed.ring
  rw [List.map_append, List.map_cons] at ring
  have gone : b ∉ front ++ back := by
    rw [List.nodup_middle] at nodup
    exact (List.nodup_cons.mp nodup).1
  refine ⟨b :: (front ++ back), ?_, fun c => ?_, ?_⟩
  · rw [links, List.map_cons, List.map_append]
    exact ring.unlink.insert (by simpa using gone)
  · have member := listed.all c
    simp only [List.mem_append, List.mem_cons] at member ⊢
    tauto
  · rw [List.pairwise_cons, stamp]
    constructor
    · intro c member
      have other : c ≠ b := fun same => gone (same ▸ member)
      rw [Function.update_self, Function.update_of_ne other]
      have before := bound c
      omega
    · refine (listed.recent.sublist (by simp)).imp_of_mem fun {c d} one two less => ?_
      have first : c ≠ b := fun same => gone (same ▸ one)
      have second : d ≠ b := fun same => gone (same ▸ two)
      rwa [Function.update_of_ne first, Function.update_of_ne second]

end Listed

namespace Inv

theorem cached_iff (inv : s.Inv) (real : dev ≠ 0) :
    s.cached dev blockno = some b ↔ (s.buf b).dev = dev ∧ (s.buf b).blockno = blockno := by
  obtain ⟨order, listed⟩ := inv.listed
  rw [listed.cached]
  constructor
  · intro found
    simpa [names] using List.find?_some found
  · rintro ⟨rfl, rfl⟩
    have present : (order.find? (s.names (s.buf b).dev (s.buf b).blockno)).isSome := by
      rw [List.find?_isSome]
      exact ⟨b, listed.all b, by simp [names]⟩
    obtain ⟨c, found⟩ := Option.isSome_iff_exists.mp present
    obtain ⟨dev, blockno⟩ : (s.buf c).dev = (s.buf b).dev ∧
        (s.buf c).blockno = (s.buf b).blockno := by
      simpa [names] using List.find?_some found
    rw [found, inv.once b c real dev.symm blockno.symm]

theorem cached_none (inv : s.Inv) (missed : s.cached dev blockno = none) (b : Fin n) :
    ¬ ((s.buf b).dev = dev ∧ (s.buf b).blockno = blockno) := by
  obtain ⟨order, listed⟩ := inv.listed
  rw [listed.cached] at missed
  simpa [names] using List.find?_eq_none.mp missed b (listed.all b)

theorem unused_none (inv : s.Inv) (missed : s.unused = none) (b : Fin n) :
    (s.buf b).refcnt ≠ 0 := by
  obtain ⟨order, listed⟩ := inv.listed
  rw [listed.unused] at missed
  simpa using List.find?_eq_none.mp missed b (List.mem_reverse.mpr (listed.all b))

/-- The buffer that is recycled is the one that has been unused for longest. -/
theorem unused_some (inv : s.Inv) (found : s.unused = some b) :
    (s.buf b).refcnt = 0 ∧ ∀ c, (s.buf c).refcnt = 0 → s.stamp b ≤ s.stamp c := by
  obtain ⟨order, listed⟩ := inv.listed
  rw [listed.unused] at found
  obtain ⟨free, front, back, split, taken⟩ := List.find?_eq_some_iff_append.mp found
  refine ⟨by simpa using free, fun c unused => ?_⟩
  have recent := List.pairwise_reverse.mpr listed.recent
  have member := List.mem_reverse.mpr (listed.all c)
  rw [split] at recent member
  rcases List.mem_append.mp member with before | after
  · have busy := taken c before
    simp [unused] at busy
  · rcases List.mem_cons.mp after with rfl | later
    · exact le_rfl
    · exact ((List.pairwise_cons.mp (List.pairwise_append.mp recent).2.1).1 c later).le

theorem retain (inv : s.Inv) (listed : ∃ order, t.Listed order)
    (stamp : ∀ b, t.stamp b ≤ t.clock) (counts : Counts (fun b => (t.buf b).refcnt) t.pins t.refs)
    (same : ∀ b, (t.buf b).valid = (s.buf b).valid ∧ (t.buf b).dev = (s.buf b).dev ∧
      (t.buf b).blockno = (s.buf b).blockno)
    (lock : t.lock = s.lock) (held : t.held = s.held)
    (loads : ∀ p b, t.pc p = .load b ↔ s.pc p = .load b)
    (named : ∀ b, (t.buf b).refcnt ≠ 0 → (s.buf b).dev ≠ 0) : t.Inv where
  listed := listed
  stamp := stamp
  counts := counts
  once b c := by
    rw [(same b).2.1, (same c).2.1, (same b).2.2, (same c).2.2]
    exact inv.once b c
  locked b p := by
    rw [lock, loads, held]
    exact inv.locked b p
  nodup p := held ▸ inv.nodup p
  apart p b loading := by
    rw [held]
    exact inv.apart p b ((loads p b).mp loading)
  named b used := by
    rw [(same b).1] at used
    rw [(same b).2.1]
    rcases used with counted | valid
    · exact named b counted
    · exact inv.named b (.inr valid)
  loaded p b mine := by
    rw [(same b).1]
    exact inv.loaded p b (held ▸ mine)

end Inv

section Fields

variable {buf : Buf D} {pc : Pc n}

@[simp] theorem buf_set (s : State n m D) (b : Fin n) (buf : Buf D) :
    (s.set b buf).buf = Function.update s.buf b buf := rfl

@[simp] theorem held_set (s : State n m D) (b : Fin n) (buf : Buf D) : (s.set b buf).held = s.held :=
  rfl

@[simp] theorem pins_set (s : State n m D) (b : Fin n) (buf : Buf D) : (s.set b buf).pins = s.pins :=
  rfl

@[simp] theorem pins_goto (s : State n m D) (p : Fin m) (pc : Pc n) :
    (s.goto p pc).pins = s.pins := rfl

@[simp] theorem buf_goto (s : State n m D) (p : Fin m) (pc : Pc n) : (s.goto p pc).buf = s.buf := rfl

theorem set_refcnt (s : State n m D) (b : Fin n) (count : ℕ) (c : Fin n) :
    ((s.set b { s.buf b with refcnt := count }).buf c).valid = (s.buf c).valid ∧
      ((s.set b { s.buf b with refcnt := count }).buf c).dev = (s.buf c).dev ∧
      ((s.set b { s.buf b with refcnt := count }).buf c).blockno = (s.buf c).blockno ∧
      ((s.set b { s.buf b with refcnt := count }).buf c).data = (s.buf c).data ∧
      ((s.set b { s.buf b with refcnt := count }).buf c).refcnt =
        if c = b then count else (s.buf c).refcnt := by
  by_cases same : c = b
  · subst same
    simp
  · simp [same]

theorem refs_goto (s : State n m D) (p : Fin m) (pc : Pc n) :
    (s.goto p pc).refs = Function.update s.refs p (pc.uses ++ s.held p) := by
  funext q
  by_cases same : q = p
  · subst same
    simp [refs, goto]
  · simp [refs, goto, same]

theorem load_goto (s : State n m D) (pc : Pc n) (here : ∀ b, s.pc p ≠ .load b)
    (next : ∀ b, pc ≠ .load b) (q : Fin m) (b : Fin n) :
    (s.goto p pc).pc q = .load b ↔ s.pc q = .load b := by
  by_cases same : q = p
  · subst same
    simp [goto, here b, next b]
  · simp [goto, same]

end Fields

namespace Inv

theorem bget_cached (inv : s.Inv) (user : s.pc p = .user) (real : dev ≠ 0)
    (found : s.cached dev blockno = some b) :
    ((s.set b { s.buf b with refcnt := (s.buf b).refcnt + 1 }).goto p (.acquiresleep b)).Inv := by
  obtain ⟨order, listed⟩ := inv.listed
  have same := set_refcnt s b ((s.buf b).refcnt + 1)
  refine inv.retain ⟨order, listed.ring, listed.all, listed.recent⟩ inv.stamp ?_
    (fun c => ⟨(same c).1, (same c).2.1, (same c).2.2.1⟩) rfl rfl
    (load_goto s _ (by simp [user]) (by simp)) fun c used => ?_
  · rw [refs_goto]
    refine inv.counts.move fun c => ?_
    rw [buf_goto, (same c).2.2.2.2, refs, user, pins_goto, pins_set, held_set]
    simp only [Pc.uses, List.nil_append, List.singleton_append, List.count_cons, beq_iff_eq]
    by_cases here : c = b
    · subst here
      simp only [if_true]
      omega
    · rw [if_neg (Ne.symm here), if_neg here]
      omega
  · rw [buf_goto, (same c).2.2.2.2] at used
    by_cases here : c = b
    · rw [here, ((inv.cached_iff real).mp found).1]
      exact real
    · rw [if_neg here] at used
      exact inv.named c (.inl used)

theorem unlocked (inv : s.Inv) (free : (s.buf b).refcnt = 0) : s.lock b = none := by
  obtain ⟨unreferenced, -⟩ := inv.counts.free free
  by_contra taken
  obtain ⟨q, holder⟩ := Option.ne_none_iff_exists'.mp taken
  refine unreferenced q ?_
  rw [refs]
  rcases (inv.locked b q).mp holder with loading | mine
  · simp [loading, Pc.uses]
  · exact List.mem_append_right _ mine

theorem bget_recycled (inv : s.Inv) (user : s.pc p = .user) (real : dev ≠ 0)
    (missed : s.cached dev blockno = none) (free : (s.buf b).refcnt = 0) :
    ((s.set b ((s.buf b).recycle dev blockno)).goto p (.acquiresleep b)).Inv := by
  obtain ⟨order, listed⟩ := inv.listed
  obtain ⟨unreferenced, unpinned⟩ := inv.counts.free free
  have other : ∀ c, c ≠ b → ((s.set b ((s.buf b).recycle dev blockno)).buf c) = s.buf c :=
    fun c apart => Function.update_of_ne apart ..
  have here : (s.set b ((s.buf b).recycle dev blockno)).buf b = (s.buf b).recycle dev blockno :=
    Function.update_self ..
  have idle : ∀ q, b ∉ s.held q := fun q mine =>
    unreferenced q (List.mem_append_right _ mine)
  refine ⟨⟨order, listed.ring, listed.all, listed.recent⟩, inv.stamp, ?_, fun c d => ?_,
    fun c q => ?_, inv.nodup, fun q c loading => ?_, fun c used => ?_, fun q c mine => ?_⟩
  · rw [refs_goto]
    refine inv.counts.move fun c => ?_
    rw [refs, user, pins_goto, pins_set, held_set, buf_goto]
    simp only [Pc.uses, List.nil_append, List.singleton_append, List.count_cons, beq_iff_eq]
    by_cases same : c = b
    · subst same
      rw [here, free, if_pos rfl, List.count_eq_zero.mpr (idle p)]
      rfl
    · rw [other c same, if_neg (Ne.symm same)]
      omega
  · rw [buf_goto]
    by_cases first : c = b <;> by_cases second : d = b
    · exact fun _ _ _ => first.trans second.symm
    · rw [first, here, other d second]
      exact fun _ sameDev sameBlock =>
        absurd ⟨sameDev.symm, sameBlock.symm⟩ (inv.cached_none missed d)
    · rw [second, here, other c first]
      exact fun _ sameDev sameBlock => absurd ⟨sameDev, sameBlock⟩ (inv.cached_none missed c)
    · rw [other c first, other d second]
      exact inv.once c d
  · exact (inv.locked c q).trans (or_congr_left
      (load_goto s _ (by simp [user]) (by simp) q c).symm)
  · exact inv.apart q c ((load_goto s _ (by simp [user]) (by simp) q c).mp loading)
  · rw [buf_goto] at used ⊢
    by_cases same : c = b
    · rw [same, here]
      exact real
    · rw [other c same] at used ⊢
      exact inv.named c used
  · have apart : c ≠ b := fun same => idle q (same ▸ mine)
    rw [buf_goto, other c apart]
    exact inv.loaded q c mine

theorem acquiresleep (inv : s.Inv) (waiting : s.pc p = .acquiresleep b) (free : s.lock b = none) :
    ({ s with
      pc := Function.update s.pc p (.load b)
      lock := Function.update s.lock b (some p) } : State n m D).Inv := by
  obtain ⟨order, listed⟩ := inv.listed
  have nobody : ∀ q, s.pc q ≠ .load b ∧ b ∉ s.held q := by
    intro q
    constructor <;> intro holds
    · simp [(inv.locked b q).mpr (.inl holds)] at free
    · simp [(inv.locked b q).mpr (.inr holds)] at free
  refine ⟨⟨order, listed.ring, listed.all, listed.recent⟩, inv.stamp, ?_, inv.once,
    fun c q => ?_, inv.nodup, fun q c loading => ?_, inv.named, inv.loaded⟩
  · have same : refs { s with
        pc := Function.update s.pc p (.load b)
        lock := Function.update s.lock b (some p) } = s.refs := by
      funext q
      by_cases here : q = p
      · subst here
        simp [refs, waiting, Pc.uses]
      · simp [refs, here]
    rw [same]
    exact inv.counts
  · dsimp only
    by_cases here : c = b
    · subst here
      rw [Function.update_self]
      by_cases mine : q = p
      · simp [mine]
      · simp [mine, nobody q, Ne.symm mine]
    · rw [Function.update_of_ne here, inv.locked]
      by_cases mine : q = p
      · simp [mine, waiting, Ne.symm here]
      · simp [mine]
  · by_cases mine : q = p
    · obtain rfl : b = c := by simpa [mine] using loading
      exact (nobody q).2
    · refine inv.apart q c ?_
      simpa [mine] using loading

def filled (s : State n m D) (b : Fin n) : Buf D :=
  if (s.buf b).valid then s.buf b
  else { s.buf b with data := s.disk (s.buf b).dev (s.buf b).blockno, valid := true }

theorem load_eq (s : State n m D) (p : Fin m) (b : Fin n) : s.load p b =
    { s with
      buf := Function.update s.buf b (filled s b)
      pc := Function.update s.pc p .user
      held := Function.update s.held p (b :: s.held p) } := by
  unfold State.load filled
  split <;> simp [set]

theorem filled_same (s : State n m D) (b : Fin n) : (filled s b).valid = true ∧
    (filled s b).dev = (s.buf b).dev ∧ (filled s b).blockno = (s.buf b).blockno ∧
    (filled s b).refcnt = (s.buf b).refcnt := by
  unfold filled
  split
  · exact ⟨‹_›, rfl, rfl, rfl⟩
  · exact ⟨rfl, rfl, rfl, rfl⟩

theorem wanted (inv : s.Inv) (loading : s.pc p = .load b) : (s.buf b).dev ≠ 0 := by
  refine inv.named b (.inl fun zero => (inv.counts.free zero).1 p ?_)
  simp [refs, loading, Pc.uses]

theorem load (inv : s.Inv) (loading : s.pc p = .load b) : (s.load p b).Inv := by
  obtain ⟨order, listed⟩ := inv.listed
  obtain ⟨valid, sameDev, sameBlock, sameRef⟩ := filled_same s b
  have outside := inv.apart p b loading
  rw [load_eq]
  have keeps : ∀ c, ((Function.update s.buf b (filled s b)) c).dev = (s.buf c).dev ∧
      ((Function.update s.buf b (filled s b)) c).blockno = (s.buf c).blockno ∧
      ((Function.update s.buf b (filled s b)) c).refcnt = (s.buf c).refcnt := by
    intro c
    by_cases here : c = b
    · subst here
      rw [Function.update_self]
      exact ⟨sameDev, sameBlock, sameRef⟩
    · rw [Function.update_of_ne here]
      exact ⟨rfl, rfl, rfl⟩
  refine ⟨⟨order, listed.ring, listed.all, listed.recent⟩, inv.stamp, ?_, fun c d => ?_,
    fun c q => ?_, fun q => ?_, fun q c loads => ?_, fun c used => ?_, fun q c mine => ?_⟩
  · have same : refs { s with
        buf := Function.update s.buf b (filled s b)
        pc := Function.update s.pc p .user
        held := Function.update s.held p (b :: s.held p) } = s.refs := by
      funext q
      by_cases here : q = p
      · subst here
        simp [refs, loading, Pc.uses]
      · simp [refs, here]
    rw [same]
    simp only [keeps]
    exact inv.counts
  · dsimp only
    rw [(keeps c).1, (keeps d).1, (keeps c).2.1, (keeps d).2.1]
    exact inv.once c d
  · rw [inv.locked]
    by_cases mine : q = p
    · subst mine
      simp [loading, eq_comm]
    · simp [mine]
  · by_cases mine : q = p
    · subst mine
      simpa using ⟨outside, inv.nodup q⟩
    · simpa [mine] using inv.nodup q
  · by_cases mine : q = p
    · simp [mine] at loads
    · simp only [Function.update_of_ne mine] at loads ⊢
      exact inv.apart q c loads
  · dsimp only at used ⊢
    rw [(keeps c).1]
    by_cases here : c = b
    · exact here ▸ inv.wanted loading
    · rw [Function.update_of_ne here] at used
      exact inv.named c used
  · dsimp only at mine ⊢
    by_cases here : c = b
    · rw [here, Function.update_self]
      exact valid
    · rw [Function.update_of_ne here]
      by_cases same : q = p
      · subst same
        simp only [Function.update_self, List.mem_cons, here, false_or] at mine
        exact inv.loaded q c mine
      · rw [Function.update_of_ne same] at mine
        exact inv.loaded q c mine

theorem holder (inv : s.Inv) (mine : b ∈ s.held p) : s.lock b = some p :=
  (inv.locked b p).mpr (.inr mine)

theorem real (inv : s.Inv) (mine : b ∈ s.held p) : (s.buf b).dev ≠ 0 :=
  inv.named b (.inr (inv.loaded p b mine))

theorem modify (inv : s.Inv) (mine : b ∈ s.held p) (data : D) :
    (s.set b { s.buf b with data := data }).Inv := by
  obtain ⟨order, listed⟩ := inv.listed
  have same : ∀ c, ((s.set b { s.buf b with data := data }).buf c).valid = (s.buf c).valid ∧
      ((s.set b { s.buf b with data := data }).buf c).dev = (s.buf c).dev ∧
      ((s.set b { s.buf b with data := data }).buf c).blockno = (s.buf c).blockno ∧
      ((s.set b { s.buf b with data := data }).buf c).refcnt = (s.buf c).refcnt := by
    intro c
    by_cases here : c = b
    · subst here
      simp
    · simp [here]
  refine ⟨⟨order, listed.ring, listed.all, listed.recent⟩, inv.stamp, ?_, fun c d => ?_,
    inv.locked, inv.nodup, inv.apart, fun c => ?_, fun q c held => ?_⟩
  · simp only [same]
    exact inv.counts
  · rw [(same c).2.1, (same d).2.1, (same c).2.2.1, (same d).2.2.1]
    exact inv.once c d
  · rw [(same c).1, (same c).2.1, (same c).2.2.2]
    exact inv.named c
  · rw [(same c).1]
    exact inv.loaded q c held

theorem bwrite_eq (inv : s.Inv) (mine : b ∈ s.held p) : s.bwrite p b =
    { s with
      disk := Function.update s.disk (s.buf b).dev
        (Function.update (s.disk (s.buf b).dev) (s.buf b).blockno (s.buf b).data) } :=
  if_pos (inv.holder mine)

theorem disk_bwrite (inv : s.Inv) (mine : b ∈ s.held p) {dev blockno : ℕ}
    (other : ¬ ((s.buf b).dev = dev ∧ (s.buf b).blockno = blockno)) :
    (s.bwrite p b).disk dev blockno = s.disk dev blockno := by
  rw [inv.bwrite_eq mine]
  by_cases sameDev : dev = (s.buf b).dev
  · have different : blockno ≠ (s.buf b).blockno := fun same => other ⟨sameDev.symm, same.symm⟩
    simp [sameDev, different]
  · simp [sameDev]

theorem bwrite (inv : s.Inv) (mine : b ∈ s.held p) : (s.bwrite p b).Inv := by
  obtain ⟨order, listed⟩ := inv.listed
  rw [inv.bwrite_eq mine]
  exact ⟨⟨order, listed.ring, listed.all, listed.recent⟩, inv.stamp, inv.counts, inv.once,
    inv.locked, inv.nodup, inv.apart, inv.named, inv.loaded⟩

theorem brelse_eq (inv : s.Inv) (mine : b ∈ s.held p) : s.brelse p b =
    { s with
      pc := Function.update s.pc p (.release b)
      lock := Function.update s.lock b none
      held := Function.update s.held p ((s.held p).erase b) } :=
  if_pos (inv.holder mine)

theorem brelse (inv : s.Inv) (user : s.pc p = .user) (mine : b ∈ s.held p) :
    (s.brelse p b).Inv := by
  obtain ⟨order, listed⟩ := inv.listed
  rw [inv.brelse_eq mine]
  have nodup := inv.nodup p
  have only : ∀ q, b ∈ s.held q → q = p := fun q his =>
    Option.some.inj ((inv.holder his).symm.trans (inv.holder mine))
  refine ⟨⟨order, listed.ring, listed.all, listed.recent⟩, inv.stamp, ?_, inv.once,
    fun c q => ?_, fun q => ?_, fun q c loads => ?_, inv.named, fun q c his => ?_⟩
  · have same : refs { s with
        pc := Function.update s.pc p (.release b)
        lock := Function.update s.lock b none
        held := Function.update s.held p ((s.held p).erase b) } =
          Function.update s.refs p (b :: (s.held p).erase b) := by
      funext q
      by_cases here : q = p
      · subst here
        simp [refs, Pc.uses]
      · simp [refs, here]
    rw [same]
    refine inv.counts.move fun c => ?_
    have counted := (List.perm_cons_erase mine).count_eq c
    simp only [refs, user, Pc.uses, List.nil_append, counted]
  · dsimp only
    by_cases here : c = b
    · subst here
      rw [Function.update_self]
      by_cases same : q = p
      · subst same
        simp [nodup.not_mem_erase]
      · have his : c ∉ s.held q := fun his => same (only q his)
        have loads : s.pc q ≠ .load c := fun loads => same
          (Option.some.inj (((inv.locked c q).mpr (.inl loads)).symm.trans (inv.holder mine)))
        simp [same, his, loads]
    · rw [Function.update_of_ne here, inv.locked]
      by_cases same : q = p
      · subst same
        simp [user, List.mem_erase_of_ne here]
      · simp [same]
  · dsimp only
    by_cases same : q = p
    · subst same
      rw [Function.update_self]
      exact nodup.erase b
    · rw [Function.update_of_ne same]
      exact inv.nodup q
  · dsimp only at loads ⊢
    by_cases same : q = p
    · simp [same] at loads
    · rw [Function.update_of_ne same] at loads ⊢
      exact inv.apart q c loads
  · dsimp only at his
    by_cases same : q = p
    · subst same
      rw [Function.update_self] at his
      exact inv.loaded q c (List.mem_of_mem_erase his)
    · rw [Function.update_of_ne same] at his
      exact inv.loaded q c his

theorem unref (inv : s.Inv) (releasing : s.pc p = .release b) : ((s.unref p b).mark b).Inv := by
  obtain ⟨order, listed⟩ := inv.listed
  have same := set_refcnt s b ((s.buf b).refcnt - 1)
  have positive : (s.buf b).refcnt ≠ 0 := by
    intro zero
    refine (inv.counts.free zero).1 p ?_
    simp [refs, releasing, Pc.uses]
  have counts : Counts (fun c => (((s.set b { s.buf b with refcnt := (s.buf b).refcnt - 1 }).goto
      p .user).buf c).refcnt) s.pins
      ((s.set b { s.buf b with refcnt := (s.buf b).refcnt - 1 }).goto p .user).refs := by
    rw [refs_goto]
    refine inv.counts.move fun c => ?_
    rw [buf_goto, (same c).2.2.2.2, refs, releasing, held_set]
    simp only [Pc.uses, List.nil_append, List.singleton_append, List.count_cons, beq_iff_eq]
    by_cases here : c = b
    · subst here
      simp only [if_true]
      omega
    · rw [if_neg (Ne.symm here), if_neg here]
      omega
  have named : ∀ c, (((s.set b { s.buf b with refcnt := (s.buf b).refcnt - 1 }).goto p .user).buf
      c).refcnt ≠ 0 → (s.buf c).dev ≠ 0 := by
    intro c used
    rw [buf_goto, (same c).2.2.2.2] at used
    by_cases here : c = b
    · exact here ▸ inv.named b (.inl positive)
    · rw [if_neg here] at used
      exact inv.named c (.inl used)
  have loads := load_goto s (p := p) .user (by simp [releasing]) (by simp)
  have kept : ∀ c, ((s.set b { s.buf b with refcnt := (s.buf b).refcnt - 1 }).buf c).valid =
      (s.buf c).valid ∧ ((s.set b { s.buf b with refcnt := (s.buf b).refcnt - 1 }).buf c).dev =
      (s.buf c).dev ∧ ((s.set b { s.buf b with refcnt := (s.buf b).refcnt - 1 }).buf c).blockno =
      (s.buf c).blockno := fun c => ⟨(same c).1, (same c).2.1, (same c).2.2.1⟩
  unfold State.unref
  dsimp only
  split
  · rename_i last
    rw [State.mark, if_pos last]
    refine inv.retain (listed.front inv.stamp b rfl rfl) (fun c => ?_) counts kept rfl rfl loads
      named
    have before := inv.stamp c
    by_cases here : c = b
    · simp [here]
    · simp only [State.goto, State.set, Function.update_of_ne here]
      omega
  · rename_i more
    rw [State.mark, if_neg more]
    exact inv.retain ⟨order, listed.ring, listed.all, listed.recent⟩ inv.stamp counts kept rfl rfl
      loads named

theorem repin (inv : s.Inv) (mine : b ∈ s.held p) {count pins : ℕ}
    (balanced : (s.buf b).refcnt + pins = count + s.pins b) : (s.repin b count pins).Inv := by
  obtain ⟨order, listed⟩ := inv.listed
  have same := set_refcnt s b count
  refine inv.retain ⟨order, listed.ring, listed.all, listed.recent⟩ inv.stamp ?_
    (fun c => ⟨(same c).1, (same c).2.1, (same c).2.2.1⟩) rfl rfl (fun q c => Iff.rfl)
    fun c used => ?_
  · intro c
    have total : (s.buf c).refcnt = ∑ q, (s.refs q).count c + s.pins c := inv.counts c
    show ((s.repin b count pins).buf c).refcnt =
      ∑ q, (s.refs q).count c + (s.repin b count pins).pins c
    by_cases here : c = b
    · subst here
      simp only [State.repin, Function.update_self]
      omega
    · simp only [State.repin, Function.update_of_ne here]
      exact total
  · by_cases here : c = b
    · exact here ▸ inv.real mine
    · simp only [State.repin, Function.update_of_ne here] at used
      exact inv.named c (.inl used)

theorem bpin (inv : s.Inv) (mine : b ∈ s.held p) : (s.bpin b).Inv := inv.repin mine (by omega)

theorem bunpin (inv : s.Inv) (mine : b ∈ s.held p) (positive : s.pins b ≠ 0) : (s.bunpin b).Inv := by
  refine inv.repin mine ?_
  have total := inv.counts b
  dsimp only at total
  omega

theorem bget_cases (s : State n m D) (p : Fin m) (dev blockno : ℕ) :
    (∃ b, s.cached dev blockno = some b ∧ s.bget p dev blockno =
      (s.set b { s.buf b with refcnt := (s.buf b).refcnt + 1 }).goto p (.acquiresleep b)) ∨
    (∃ b, s.cached dev blockno = none ∧ s.unused = some b ∧ s.bget p dev blockno =
      (s.set b ((s.buf b).recycle dev blockno)).goto
        p (.acquiresleep b)) ∨
    s.unused = none ∧ s.bget p dev blockno = { s with panic := some .noBuffers } := by
  unfold State.bget
  split
  · exact .inl ⟨_, ‹_›, rfl⟩
  · split
    · exact .inr (.inl ⟨_, ‹_›, ‹_›, rfl⟩)
    · exact .inr (.inr ⟨‹_›, rfl⟩)

theorem panicked (inv : s.Inv) (panic : Option Panic) : ({ s with panic := panic } : State n m D).Inv :=
  let ⟨order, listed⟩ := inv.listed
  ⟨⟨order, listed.ring, listed.all, listed.recent⟩, inv.stamp, inv.counts, inv.once, inv.locked,
    inv.nodup, inv.apart, inv.named, inv.loaded⟩

theorem bget (inv : s.Inv) (user : s.pc p = .user) (real : dev ≠ 0) :
    (s.bget p dev blockno).Inv := by
  rcases bget_cases s p dev blockno with ⟨b, found, result⟩ | ⟨b, missed, free, result⟩ |
    ⟨-, result⟩ <;> rw [result]
  · exact inv.bget_cached user real found
  · exact inv.bget_recycled user real missed (inv.unused_some free).1
  · exact inv.panicked _

end Inv

theorem step_cases {label : Label n m D} (taken : s.step label = some t) :
    s.panic = none ∧
      match label with
      | .bget p dev blockno => s.pc p = .user ∧ t = s.bget p dev blockno
      | .acquiresleep p => ∃ b, s.pc p = .acquiresleep b ∧ s.lock b = none ∧
          t = { s with
            pc := Function.update s.pc p (.load b)
            lock := Function.update s.lock b (some p) }
      | .load p => ∃ b, s.pc p = .load b ∧ t = s.load p b
      | .modify p b data => s.pc p = .user ∧ t = s.set b { s.buf b with data := data }
      | .bwrite p b => s.pc p = .user ∧ t = s.bwrite p b
      | .brelse p b => s.pc p = .user ∧ t = s.brelse p b
      | .unref p => ∃ b, s.pc p = .release b ∧ t = (s.unref p b).mark b
      | .bpin p b => s.pc p = .user ∧ t = s.bpin b
      | .bunpin p b => s.pc p = .user ∧ t = s.bunpin b := by
  unfold State.step at taken
  split at taken
  · cases taken
  · rename_i calm
    refine ⟨by simpa using calm, ?_⟩
    cases label with
    | acquiresleep p =>
        dsimp only at taken ⊢
        split at taken
        · split at taken
          · exact ⟨_, ‹_›, ‹_›, (Option.some.inj taken).symm⟩
          · cases taken
        · cases taken
    | load p =>
        dsimp only at taken ⊢
        split at taken
        · exact ⟨_, ‹_›, (Option.some.inj taken).symm⟩
        · cases taken
    | unref p =>
        dsimp only at taken ⊢
        split at taken
        · exact ⟨_, ‹_›, (Option.some.inj taken).symm⟩
        · cases taken
    | bget | modify | bwrite | brelse | bpin | bunpin =>
        dsimp only at taken ⊢
        split at taken
        · exact ⟨‹_›, (Option.some.inj taken).symm⟩
        · cases taken

theorem Inv.step {label : Label n m D} (inv : s.Inv) (allowed : Uses s label)
    (taken : s.step label = some t) : t.Inv := by
  obtain ⟨-, change⟩ := step_cases taken
  cases label with
  | bget p dev blockno =>
      obtain ⟨user, rfl⟩ := change
      exact inv.bget user allowed
  | acquiresleep p =>
      obtain ⟨b, waiting, free, rfl⟩ := change
      exact inv.acquiresleep waiting free
  | load p =>
      obtain ⟨b, loading, rfl⟩ := change
      exact inv.load loading
  | modify p b data =>
      obtain ⟨-, rfl⟩ := change
      exact inv.modify allowed data
  | bwrite p b =>
      obtain ⟨-, rfl⟩ := change
      exact inv.bwrite allowed
  | brelse p b =>
      obtain ⟨user, rfl⟩ := change
      exact inv.brelse user allowed
  | unref p =>
      obtain ⟨b, releasing, rfl⟩ := change
      exact inv.unref releasing
  | bpin p b =>
      obtain ⟨-, rfl⟩ := change
      exact inv.bpin allowed
  | bunpin p b =>
      obtain ⟨-, rfl⟩ := change
      exact inv.bunpin allowed.1 allowed.2

theorem binit_ring (links : Links (Option (Fin n))) (bs order : List (Fin n))
    (ring : links.Ring none (order.map some)) (nodup : bs.Nodup) (apart : ∀ b ∈ bs, b ∉ order) :
    (bs.foldl (fun links b => links.insert none (some b)) links).Ring none
      ((bs.reverse ++ order).map some) := by
  induction bs generalizing links order with
  | nil => exact ring
  | cons b bs ih =>
      obtain ⟨fresh, nodup⟩ := List.nodup_cons.mp nodup
      rw [List.foldl_cons, List.reverse_cons, List.append_assoc, List.singleton_append]
      refine ih _ (b :: order) (ring.insert ?_) nodup fun c member => ?_
      · simpa using apart b List.mem_cons_self
      · rw [List.mem_cons, not_or]
        exact ⟨fun same => fresh (same ▸ member), apart c (List.mem_cons_of_mem _ member)⟩

theorem Inv.boot (booted : Boot s) : s.Inv := by
  have empty : ∀ p, s.refs p = [] := by
    intro p
    rw [refs, (booted.pc p).1, (booted.pc p).2]
    rfl
  have free : ∀ b p, s.lock b ≠ some p := by simp [booted.lock]
  have idle : ∀ b p, b ∉ s.held p := by simp [fun p => (booted.pc p).2]
  refine ⟨⟨(List.finRange n).reverse, ?_, by simp, ?_⟩, fun b => ?_, fun b => ?_, fun b c real => ?_,
    fun b p => ?_, fun p => ?_, fun p b _ => idle b p, fun b used => ?_,
    fun p b mine => absurd mine (idle b p)⟩
  · have ring := binit_ring ⟨fun _ => none, fun _ => none⟩ (List.finRange n) [] (.empty none)
      (List.nodup_finRange n) fun _ _ => List.not_mem_nil
    rw [List.append_nil] at ring
    rw [booted.links]
    exact ring
  · refine List.pairwise_reverse.mpr ((List.pairwise_lt_finRange n).imp fun less => ?_)
    rw [booted.stamp, booted.stamp]
    exact less
  · rw [booted.stamp, booted.clock]
    exact b.isLt.le
  · simp [empty, (booted.buf b).2.2, booted.pins b]
  · exact absurd (booted.buf b).2.1 real
  · simp [free b p, (booted.pc p).1, idle b p]
  · rw [(booted.pc p).2]
    exact List.nodup_nil
  · rcases used with counted | valid
    · exact absurd (booted.buf b).2.2 counted
    · simp [(booted.buf b).1] at valid

theorem reachable_inv (reachable : (used n m D).Reachable s) : s.Inv :=
  reachable.invariant (fun _ => Inv.boot) fun _ _ _ inv taken => inv.step taken.1 taken.2

/-- The only panic is that of `bget`, when every buffer is in use. -/
def Calm (s : State n m D) : Prop :=
  s.panic = none ∨ s.panic = some .noBuffers ∧ ∀ b, (s.buf b).refcnt ≠ 0

theorem calm_step {label : Label n m D} (inv : s.Inv) (allowed : Uses s label)
    (taken : s.step label = some t) : t.Calm := by
  obtain ⟨calm, change⟩ := step_cases taken
  cases label with
  | bget p dev blockno =>
      obtain ⟨-, rfl⟩ := change
      rcases Inv.bget_cases s p dev blockno with ⟨b, -, result⟩ | ⟨b, -, -, result⟩ |
        ⟨missed, result⟩ <;> rw [result]
      · exact .inl calm
      · exact .inl calm
      · exact .inr ⟨rfl, inv.unused_none missed⟩
  | acquiresleep p =>
      obtain ⟨b, -, -, rfl⟩ := change
      exact .inl calm
  | load p =>
      obtain ⟨b, -, rfl⟩ := change
      rw [Inv.load_eq]
      exact .inl calm
  | bwrite p b =>
      obtain ⟨-, rfl⟩ := change
      rw [inv.bwrite_eq allowed]
      exact .inl calm
  | brelse p b =>
      obtain ⟨-, rfl⟩ := change
      rw [inv.brelse_eq allowed]
      exact .inl calm
  | unref p =>
      obtain ⟨b, -, rfl⟩ := change
      left
      have unref : (s.unref p b).panic = s.panic := by
        unfold State.unref
        dsimp only
        split <;> rfl
      unfold State.mark
      split <;> exact unref.trans calm
  | modify p b data | bpin p b | bunpin p b =>
      obtain ⟨-, rfl⟩ := change
      exact .inl calm

theorem reachable_calm (reachable : (used n m D).Reachable s) : s.Calm :=
  reachable.invariantWith (fun _ => reachable_inv) (fun _ booted => .inl booted.panic)
    fun _ _ _ inv _ _ taken => calm_step inv taken.1 taken.2

/-- The count of a buffer is its references and pins, a block is in one buffer, a buffer is held by
one process, the search for a buffer finds the one that was given up first, and only `bget` panics,
when every buffer is in use. -/
theorem buffers_sound (reachable : (used n m D).Reachable s) :
    (∀ b, (s.buf b).refcnt = ∑ p, (s.refs p).count b + s.pins b) ∧
    (∀ b c, (s.buf b).dev ≠ 0 → (s.buf b).dev = (s.buf c).dev →
      (s.buf b).blockno = (s.buf c).blockno → b = c) ∧
    (∀ p q b, b ∈ s.held p → b ∈ s.held q → p = q) ∧
    (∀ b, s.unused = some b → (s.buf b).refcnt = 0 ∧
      ∀ c, (s.buf c).refcnt = 0 → s.stamp b ≤ s.stamp c) ∧
    ∀ panic, s.panic = some panic → panic = .noBuffers ∧ ∀ b, (s.buf b).refcnt ≠ 0 := by
  have inv := reachable_inv reachable
  refine ⟨inv.counts, inv.once, fun p q b mine his => ?_, fun b => inv.unused_some,
    fun panic found => ?_⟩
  · exact Option.some.inj ((inv.holder mine).symm.trans (inv.holder his))
  · rcases reachable_calm reachable with calm | ⟨panicked, used⟩
    · rw [calm] at found
      cases found
    · exact ⟨Option.some.inj (found.symm.trans panicked), used⟩

end State

def blank (n m : ℕ) : State n m ℕ where
  buf _ := ⟨false, 0, 0, 0, 0⟩
  links := binit n
  lock _ := none
  pc _ := .user
  held _ := []
  disk dev blockno := dev + blockno
  panic := none
  pins _ := 0
  stamp b := b
  clock := n

theorem blank_boot : Boot (blank n m) where
  buf _ := ⟨rfl, rfl, rfl⟩
  links := rfl
  lock _ := rfl
  pc _ := ⟨rfl, rfl⟩
  panic := rfl
  pins _ := rfl
  stamp _ := rfl
  clock := rfl

instance (s : State n m ℕ) : ∀ label, Decidable (Uses s label)
  | .bget _ dev _ => inferInstanceAs (Decidable (dev ≠ 0))
  | .modify p b _ | .bwrite p b | .brelse p b | .bpin p b =>
      inferInstanceAs (Decidable (b ∈ s.held p))
  | .bunpin p b => inferInstanceAs (Decidable (b ∈ s.held p ∧ s.pins b ≠ 0))
  | .acquiresleep .. | .load .. | .unref .. => .isTrue trivial

def shared (p q : Fin m) : List (Label n m ℕ) :=
  [.bget p 1 5, .acquiresleep p, .load p, .bget q 1 5]

theorem State.buffers_sound_shared : ∃ s : State 2 2 ℕ, (used 2 2 ℕ).Reachable s ∧
    (s.buf 0).refcnt = 2 ∧ (s.buf 0).refcnt = ∑ p, (s.refs p).count 0 + s.pins 0 := by
  have sound : ∀ before label after, System.guard Uses State.step before label =
      some after → (used 2 2 ℕ).step before label after :=
    System.guard_sound fun _ _ _ taken => taken
  obtain ⟨s, run, counted⟩ := System.Run.existsOfExecute sound
    (show (System.execute _ (blank 2 2) (shared 0 1)).map (fun s => (s.buf 0).refcnt) =
      some 2 by decide)
  have reachable := run.reachable (.start blank_boot)
  exact ⟨s, reachable, counted, (buffers_sound reachable).1 0⟩

end OsLab.Kernel.Buffers
