import OsLab.Kernel.BuffersSafety
import OsLab.Library.Refinement

/-!
The buffer cache behaves as the blocks of the disk themselves, each locked by at most one process.
-/

namespace OsLab.Kernel.Buffers

open OsLab.Library

variable {n m : ℕ} {D : Type} {s t : State n m D} {p q : Fin m} {b c : Fin n} {dev blockno : ℕ}

namespace State

/-! ### What is not on the disk is kept -/

theorem Saved.keep (saved : s.Saved) (kept : ∀ c, (t.buf c).valid = true → t.lock c = none →
    ((s.buf c).valid = true ∧ s.lock c = none) ∧ (s.Clean c → t.Clean c) ∧
      (s.pins c ≠ 0 → t.pins c ≠ 0)) : t.Saved := by
  intro c valid free
  obtain ⟨before, clean, pinned⟩ := kept c valid free
  exact (saved c before.1 before.2).imp clean pinned

theorem Saved.counted (saved : s.Saved)
    (same : ∀ c, (t.buf c).valid = (s.buf c).valid ∧ (t.buf c).dev = (s.buf c).dev ∧
      (t.buf c).blockno = (s.buf c).blockno ∧ (t.buf c).data = (s.buf c).data)
    (lock : t.lock = s.lock) (disk : t.disk = s.disk)
    (pins : ∀ c, s.lock c = none → s.pins c ≠ 0 → t.pins c ≠ 0) : t.Saved := by
  refine saved.keep fun c valid free => ?_
  rw [(same c).1] at valid
  rw [lock] at free
  refine ⟨⟨valid, free⟩, fun clean => ?_, pins c free⟩
  rw [Clean, (same c).2.2.2, (same c).2.1, (same c).2.2.1, disk]
  exact clean

theorem Saved.apart (saved : s.Saved) (taken : t.lock b ≠ none)
    (other : ∀ c, c ≠ b → t.buf c = s.buf c ∧ t.lock c = s.lock c) (pins : t.pins = s.pins)
    (disk : ∀ c, c ≠ b → t.lock c = none →
      t.disk (s.buf c).dev (s.buf c).blockno = s.disk (s.buf c).dev (s.buf c).blockno) :
    t.Saved := by
  refine saved.keep fun c valid free => ?_
  have elsewhere : c ≠ b := by
    rintro rfl
    exact taken free
  obtain ⟨buf, lock⟩ := other c elsewhere
  rw [buf] at valid
  refine ⟨⟨valid, lock ▸ free⟩, fun clean => ?_, fun pinned => pins ▸ pinned⟩
  rw [Clean, buf, disk c elsewhere free]
  exact clean

theorem unref_frame (s : State n m D) (p : Fin m) (b : Fin n) :
    ((s.unref p b).mark b).buf = (s.set b { s.buf b with refcnt := (s.buf b).refcnt - 1 }).buf ∧
      ((s.unref p b).mark b).held = s.held ∧ ((s.unref p b).mark b).disk = s.disk ∧
      ((s.unref p b).mark b).lock = s.lock ∧ ((s.unref p b).mark b).pins = s.pins := by
  have same : ∀ t : State n m D, (t.mark b).buf = t.buf ∧ (t.mark b).held = t.held ∧
      (t.mark b).disk = t.disk ∧ (t.mark b).lock = t.lock ∧ (t.mark b).pins = t.pins := by
    intro t
    unfold State.mark
    split <;> exact ⟨rfl, rfl, rfl, rfl, rfl⟩
  rw [(same _).1, (same _).2.1, (same _).2.2.1, (same _).2.2.2.1, (same _).2.2.2.2]
  unfold State.unref
  dsimp only
  split <;> exact ⟨rfl, rfl, rfl, rfl, rfl⟩

theorem Saved.bget (saved : s.Saved) (p : Fin m) (dev blockno : ℕ) :
    (s.bget p dev blockno).Saved := by
  rcases Inv.bget_cases s p dev blockno with ⟨b, -, result⟩ | ⟨b, -, -, result⟩ | ⟨-, result⟩ <;>
    rw [result]
  · have same := set_refcnt s b ((s.buf b).refcnt + 1)
    exact saved.counted (fun c => ⟨(same c).1, (same c).2.1, (same c).2.2.1, (same c).2.2.2.1⟩)
      rfl rfl fun _ _ pinned => pinned
  · refine saved.keep fun c valid free => ?_
    have apart : c ≠ b := by
      rintro rfl
      simp [Buf.recycle] at valid
    rw [buf_goto, buf_set, Function.update_of_ne apart] at valid
    refine ⟨⟨valid, free⟩, fun clean => ?_, id⟩
    rw [Clean, buf_goto, buf_set, Function.update_of_ne apart]
    exact clean
  · exact saved

theorem Saved.brelse (saved : s.Saved) (inv : s.Inv) (mine : b ∈ s.held p)
    (safe : s.Clean b ∨ s.pins b ≠ 0) : (s.brelse p b).Saved := by
  rw [inv.brelse_eq mine]
  intro c valid free
  by_cases here : c = b
  · exact here ▸ safe
  · refine saved c valid ?_
    simpa [here] using free

/-- Only `brelse` of a buffer that the disk does not have would lose anything. -/
theorem Saved.step {label : Label n m D} (saved : s.Saved) (inv : s.Inv) (allowed : Uses s label)
    (saves : Saves s label) (taken : s.step label = some t) : t.Saved := by
  obtain ⟨-, change⟩ := step_cases taken
  cases label with
  | bget p dev blockno =>
      obtain ⟨-, rfl⟩ := change
      exact saved.bget p dev blockno
  | acquiresleep p =>
      obtain ⟨b, -, -, rfl⟩ := change
      exact saved.apart (b := b) (by simp) (fun c apart => ⟨rfl, by simp [apart]⟩) rfl
        fun _ _ _ => rfl
  | load p =>
      obtain ⟨b, loading, rfl⟩ := change
      have lock := (inv.locked b p).mpr (.inl loading)
      rw [Inv.load_eq]
      exact saved.apart (b := b) (by simp [lock]) (fun c apart => ⟨by simp [apart], rfl⟩) rfl
        fun _ _ _ => rfl
  | modify p b data =>
      obtain ⟨-, rfl⟩ := change
      exact saved.apart (b := b) (by simp [State.set, inv.holder allowed])
        (fun c apart => ⟨by simp [apart], rfl⟩) rfl fun _ _ _ => rfl
  | bwrite p b =>
      obtain ⟨-, rfl⟩ := change
      have frame := fun dev blockno => @Inv.disk_bwrite _ _ _ _ _ _ inv allowed dev blockno
      rw [inv.bwrite_eq allowed] at frame ⊢
      refine saved.apart (b := b) (by simp [inv.holder allowed]) (fun _ _ => ⟨rfl, rfl⟩) rfl
        fun c apart _ => frame _ _ fun same => ?_
      exact apart (inv.once b c (inv.real allowed) same.1 same.2).symm
  | brelse p b =>
      obtain ⟨-, rfl⟩ := change
      exact saved.brelse inv allowed saves
  | unref p =>
      obtain ⟨b, -, rfl⟩ := change
      obtain ⟨buf, -, disk, lock, pins⟩ := unref_frame s p b
      have same := set_refcnt s b ((s.buf b).refcnt - 1)
      refine saved.counted (fun c => ?_) lock disk fun c _ pinned => by rwa [pins]
      rw [buf]
      exact ⟨(same c).1, (same c).2.1, (same c).2.2.1, (same c).2.2.2.1⟩
  | bpin p b =>
      obtain ⟨-, rfl⟩ := change
      have same := set_refcnt s b ((s.buf b).refcnt + 1)
      refine saved.counted (fun c => ⟨(same c).1, (same c).2.1, (same c).2.2.1, (same c).2.2.2.1⟩)
        rfl rfl fun c _ pinned => ?_
      by_cases here : c = b <;> simp_all [State.bpin, State.repin]
  | bunpin p b =>
      obtain ⟨-, rfl⟩ := change
      have same := set_refcnt s b ((s.buf b).refcnt - 1)
      refine saved.counted (fun c => ⟨(same c).1, (same c).2.1, (same c).2.2.1, (same c).2.2.2.1⟩)
        rfl rfl fun c free pinned => ?_
      have apart : c ≠ b := by
        rintro rfl
        simp [inv.holder allowed.1] at free
      simpa [State.bunpin, State.repin, apart] using pinned

theorem reachable_saved (reachable : (disciplined n m D).Reachable s) : s.Inv ∧ s.Saved := by
  refine ⟨reachable_inv reachable.unrestrict, reachable.invariantWith
    (fun _ reached => reachable_inv reached.unrestrict) (fun t booted b valid => ?_) ?_⟩
  · rw [(booted.buf b).1] at valid
    cases valid
  · exact fun _ _ _ inv _ saved taken => saved.step inv taken.2.1 taken.1 taken.2.2

/-! ### The blocks that the processes see -/

abbrev Key := { k : ℕ × ℕ // k.1 ≠ 0 }

def content (s : State n m D) (k : Key) : D :=
  match s.cached k.val.1 k.val.2 with
  | some b => (Inv.filled s b).data
  | none => s.disk k.val.1 k.val.2

def holder (s : State n m D) (k : Key) : Option (Fin m) :=
  match s.cached k.val.1 k.val.2 with
  | some b => (s.lock b).filter fun p => (s.held p).any fun c => c = b
  | none => none

def Names (s : State n m D) (b : Fin n) (k : Key) : Prop :=
  (s.buf b).dev = k.val.1 ∧ (s.buf b).blockno = k.val.2

namespace Inv

theorem content_of (inv : s.Inv) {k : Key} (names : s.Names b k) :
    s.content k = (filled s b).data := by
  rw [content, (inv.cached_iff k.property).mpr names]

theorem content_uncached (inv : s.Inv) {k : Key} (missing : ∀ b, ¬ s.Names b k) :
    s.content k = s.disk k.val.1 k.val.2 := by
  have missed : s.cached k.val.1 k.val.2 = none := by
    by_contra found
    obtain ⟨b, found⟩ := Option.ne_none_iff_exists'.mp found
    exact missing b ((inv.cached_iff k.property).mp found)
  rw [content, missed]

theorem holder_iff (inv : s.Inv) {k : Key} :
    s.holder k = some p ↔ ∃ b, s.Names b k ∧ b ∈ s.held p := by
  unfold State.holder
  split
  · rename_i b found
    have names : s.Names b k := (inv.cached_iff k.property).mp found
    rw [Option.filter_eq_some_iff]
    constructor
    · rintro ⟨-, mine⟩
      exact ⟨b, names, by simpa using mine⟩
    · rintro ⟨c, other, mine⟩
      obtain rfl := inv.once b c (names.1.trans_ne k.property) (names.1.trans other.1.symm)
        (names.2.trans other.2.symm)
      exact ⟨inv.holder mine, by simpa using mine⟩
  · rename_i missed
    constructor
    · intro none
      cases none
    · rintro ⟨b, names, -⟩
      exact absurd names (inv.cached_none missed b)

theorem content_congr (inv : s.Inv) (after : t.Inv) {k : Key}
    (keys : ∀ b, t.Names b k ↔ s.Names b k)
    (data : ∀ b, s.Names b k → (filled t b).data = (filled s b).data)
    (disk : (∀ b, ¬ s.Names b k) → t.disk k.val.1 k.val.2 = s.disk k.val.1 k.val.2) :
    t.content k = s.content k := by
  by_cases cached : ∃ b, s.Names b k
  · obtain ⟨b, names⟩ := cached
    rw [inv.content_of names, after.content_of ((keys b).mpr names), data b names]
  · rw [not_exists] at cached
    rw [inv.content_uncached cached, after.content_uncached fun b => mt (keys b).mp (cached b),
      disk cached]

theorem holder_congr (inv : s.Inv) (after : t.Inv) {k : Key}
    (keys : ∀ p b, t.Names b k ∧ b ∈ t.held p ↔ s.Names b k ∧ b ∈ s.held p) :
    t.holder k = s.holder k := by
  ext p
  rw [inv.holder_iff, after.holder_iff]
  exact exists_congr (keys p)

end Inv

end State

/-! ### Refinement -/

open State

/-- The blocks of the disk, each with the process that has locked it. -/
structure Store (m : ℕ) (D : Type) where
  data : Key → D
  holder : Key → Option (Fin m)

inductive Event (m : ℕ) (D : Type)
  | lock (p : Fin m) (k : Key) (data : D)
  | write (p : Fin m) (k : Key) (data : D)
  | unlock (p : Fin m) (k : Key)

def Store.step (a : Store m D) : Event m D → Store m D → Prop
  | .lock p k data, c => a.holder k = none ∧ data = a.data k ∧
      c = { a with holder := Function.update a.holder k (some p) }
  | .write p k data, c => a.holder k = some p ∧ c = { a with data := Function.update a.data k data }
  | .unlock p k, c => a.holder k = some p ∧
      c = { a with holder := Function.update a.holder k none }

def blocks (m : ℕ) (D : Type) : System (Store m D) (Event m D) where
  init a := ∀ k, a.holder k = none
  step a event c := a.step event c

def store (s : State n m D) : Store m D := ⟨s.content, s.holder⟩

def key (s : State n m D) (b : Fin n) : Option Key :=
  if real : (s.buf b).dev ≠ 0 then some ⟨((s.buf b).dev, (s.buf b).blockno), real⟩ else none

def event (s : State n m D) : Label n m D → Option (Event m D)
  | .load p =>
      match s.pc p with
      | .load b => (key s b).map fun k => .lock p k (Inv.filled s b).data
      | _ => none
  | .modify p b data => (key s b).map fun k => .write p k data
  | .brelse p b => (key s b).map fun k => .unlock p k
  | _ => none

theorem key_eq (real : (s.buf b).dev ≠ 0) : ∃ k, key s b = some k ∧ s.Names b k :=
  ⟨_, dif_pos real, rfl, rfl⟩

theorem store_congr (content : ∀ k, t.content k = s.content k)
    (holder : ∀ k, t.holder k = s.holder k) : store t = store s := by
  rw [store, store, funext content, funext holder]

theorem store_refcnt (inv : s.Inv) (after : t.Inv)
    (same : ∀ b, (t.buf b).valid = (s.buf b).valid ∧ (t.buf b).dev = (s.buf b).dev ∧
      (t.buf b).blockno = (s.buf b).blockno ∧ (t.buf b).data = (s.buf b).data)
    (held : t.held = s.held) (disk : t.disk = s.disk) : store t = store s := by
  have names : ∀ b k, t.Names b k ↔ s.Names b k := by
    intro b k
    rw [Names, Names, (same b).2.1, (same b).2.2.1]
  refine store_congr (fun k => inv.content_congr after (fun b => names b k) (fun b _ => ?_)
    fun _ => by rw [disk]) fun k => inv.holder_congr after fun p b => by rw [names, held]
  unfold Inv.filled
  rw [(same b).1]
  split
  · exact (same b).2.2.2
  · simp only [(same b).2.1, (same b).2.2.1, disk]

/-- A buffer that can be recycled has nothing that the disk does not have. -/
theorem filled_free (inv : s.Inv) (saved : s.Saved) (free : (s.buf b).refcnt = 0) :
    (Inv.filled s b).data = s.disk (s.buf b).dev (s.buf b).blockno := by
  unfold Inv.filled
  split
  · rename_i valid
    rcases saved b valid (inv.unlocked free) with clean | pinned
    · exact clean
    · exact absurd (inv.counts.free free).2 pinned
  · rfl

theorem store_recycled (inv : s.Inv) (saved : s.Saved) (free : (s.buf b).refcnt = 0)
    (after : ((s.set b ((s.buf b).recycle dev blockno)).goto p (.acquiresleep b)).Inv) :
    store ((s.set b ((s.buf b).recycle dev blockno)).goto p (.acquiresleep b)) = store s := by
  have here : ((s.set b ((s.buf b).recycle dev blockno)).goto p (.acquiresleep b)).buf b =
      (s.buf b).recycle dev blockno := Function.update_self ..
  have other : ∀ c, c ≠ b → ((s.set b ((s.buf b).recycle dev blockno)).goto p
      (.acquiresleep b)).buf c = s.buf c := fun c apart => Function.update_of_ne apart ..
  have disk : ((s.set b ((s.buf b).recycle dev blockno)).goto p (.acquiresleep b)).disk =
      s.disk := rfl
  have held : ((s.set b ((s.buf b).recycle dev blockno)).goto p (.acquiresleep b)).held =
      s.held := rfl
  generalize (s.set b ((s.buf b).recycle dev blockno)).goto p (.acquiresleep b) = t
    at here other disk held after ⊢
  have names : ∀ c k, c ≠ b → (t.Names c k ↔ s.Names c k) := by
    intro c k apart
    rw [Names, Names, other c apart]
  refine store_congr (fun k => ?_) fun k => inv.holder_congr after fun q c => ?_
  · by_cases elsewhere : ∃ c, c ≠ b ∧ s.Names c k
    · obtain ⟨c, apart, named⟩ := elsewhere
      rw [inv.content_of named, after.content_of ((names c k apart).mpr named), Inv.filled,
        Inv.filled, other c apart, disk]
    · have only : ∀ c, s.Names c k → c = b := fun c named => by
        by_contra apart
        exact elsewhere ⟨c, apart, named⟩
      have before : s.content k = s.disk k.val.1 k.val.2 := by
        by_cases named : s.Names b k
        · rw [inv.content_of named, filled_free inv saved free, named.1, named.2]
        · exact inv.content_uncached fun c there => named (only c there ▸ there)
      rw [before]
      by_cases named : t.Names b k
      · rw [after.content_of named, Inv.filled, here, ← disk]
        rw [Names, here] at named
        show t.disk ((s.buf b).recycle dev blockno).dev ((s.buf b).recycle dev blockno).blockno = _
        rw [named.1, named.2]
      · rw [after.content_uncached fun c there => ?_, disk]
        by_cases same : c = b
        · exact named (same ▸ there)
        · exact same (only c ((names c k same).mp there))
  · rw [held]
    by_cases same : c = b
    · have idle : b ∉ s.held q := fun mine =>
        (inv.counts.free free).1 q (List.mem_append_right _ mine)
      simp [same, idle]
    · rw [names c k same]

theorem store_bget (inv : s.Inv) (saved : s.Saved) (user : s.pc p = .user) (real : dev ≠ 0) :
    store (s.bget p dev blockno) = store s := by
  have after : (s.bget p dev blockno).Inv := inv.bget user real
  rcases Inv.bget_cases s p dev blockno with ⟨b, found, result⟩ | ⟨b, -, free, result⟩ |
    ⟨-, result⟩
  · rw [result] at after ⊢
    have same := set_refcnt s b ((s.buf b).refcnt + 1)
    exact store_refcnt inv after
      (fun c => ⟨(same c).1, (same c).2.1, (same c).2.2.1, (same c).2.2.2.1⟩) rfl rfl
  · rw [result] at after ⊢
    exact store_recycled inv saved (inv.unused_some free).1 after
  · rw [result]
    rfl

theorem store_unref (inv : s.Inv) (releasing : s.pc p = .release b) :
    store ((s.unref p b).mark b) = store s := by
  have same := set_refcnt s b ((s.buf b).refcnt - 1)
  obtain ⟨buf, held, disk, -⟩ := unref_frame s p b
  refine store_refcnt inv (inv.unref releasing) (fun c => ?_) held disk
  rw [buf]
  exact ⟨(same c).1, (same c).2.1, (same c).2.2.1, (same c).2.2.2.1⟩

theorem store_repin (inv : s.Inv) {count pins : ℕ} (after : (s.repin b count pins).Inv) :
    store (s.repin b count pins) = store s :=
  have same := set_refcnt s b count
  store_refcnt inv after (fun c => ⟨(same c).1, (same c).2.1, (same c).2.2.1, (same c).2.2.2.1⟩)
    rfl rfl

theorem State.Names.key_unique {k l : Key} (one : s.Names b k) (two : s.Names b l) : k = l :=
  Subtype.ext (Prod.ext (one.1.symm.trans two.1) (one.2.symm.trans two.2))

theorem State.Names.buf_unique (inv : s.Inv) {k : Key} (one : s.Names b k) (two : s.Names c k) : b = c :=
  inv.once b c (one.1.trans_ne k.property) (one.1.trans two.1.symm) (one.2.trans two.2.symm)

theorem filled_valid (valid : (s.buf b).valid = true) : Inv.filled s b = s.buf b := if_pos valid

theorem names_update {buf : Buf D} (dev : buf.dev = (s.buf b).dev)
    (blockno : buf.blockno = (s.buf b).blockno) (changed : t.buf = Function.update s.buf b buf)
    (c : Fin n) (k : Key) : t.Names c k ↔ s.Names c k := by
  rw [Names, Names, changed]
  by_cases same : c = b
  · subst same
    rw [Function.update_self, dev, blockno]
  · rw [Function.update_of_ne same]

theorem holder_elsewhere (inv : s.Inv) (after : t.Inv) (keys : ∀ c k, t.Names c k ↔ s.Names c k)
    {k l : Key} (names : s.Names b k) (held : ∀ q c, c ≠ b → (c ∈ t.held q ↔ c ∈ s.held q))
    (other : l ≠ k) : t.holder l = s.holder l := by
  refine inv.holder_congr after fun q c => ?_
  rw [keys]
  refine and_congr_right fun there => held q c ?_
  rintro rfl
  exact other (there.key_unique names)

theorem store_load (inv : s.Inv) (loading : s.pc p = .load b) {k : Key} (names : s.Names b k) :
    (store s).step (.lock p k (Inv.filled s b).data) (store (s.load p b)) := by
  have after := inv.load loading
  obtain ⟨valid, dev, blockno, -⟩ := Inv.filled_same s b
  have buf : (s.load p b).buf = Function.update s.buf b (Inv.filled s b) := by rw [Inv.load_eq]
  have held : (s.load p b).held = Function.update s.held p (b :: s.held p) := by
    rw [Inv.load_eq]
  have disk : (s.load p b).disk = s.disk := by rw [Inv.load_eq]
  generalize s.load p b = t at after buf held disk
  have keys := names_update dev blockno buf
  have free : s.holder k = none := by
    by_contra taken
    obtain ⟨q, holder⟩ := Option.ne_none_iff_exists'.mp taken
    obtain ⟨c, there, his⟩ := inv.holder_iff.mp holder
    obtain rfl := there.buf_unique inv names
    have lock := (inv.locked c p).mpr (.inl loading)
    obtain rfl : q = p := Option.some.inj ((inv.holder his).symm.trans lock)
    exact inv.apart q c loading his
  have content : t.content = s.content := by
    funext l
    refine inv.content_congr after (fun c => keys c l) (fun c _ => ?_) fun _ => by rw [disk]
    by_cases here : c = b
    · subst here
      have now : t.buf c = Inv.filled s c := by rw [buf, Function.update_self]
      rw [filled_valid (now ▸ valid), now]
    · have now : t.buf c = s.buf c := by rw [buf, Function.update_of_ne here]
      rw [Inv.filled, Inv.filled, now, disk]
  have holder : t.holder = Function.update s.holder k (some p) := by
    funext l
    by_cases here : l = k
    · subst here
      rw [Function.update_self, after.holder_iff]
      exact ⟨b, (keys b l).mpr names, by simp [held]⟩
    · rw [Function.update_of_ne here]
      refine holder_elsewhere inv after keys names (fun q c apart => ?_) here
      by_cases mine : q = p
      · simp [held, mine, apart]
      · simp [held, mine]
  exact ⟨free, (inv.content_of names).symm, by rw [store, content, holder]; rfl⟩

theorem store_modify (inv : s.Inv) (mine : b ∈ s.held p) {k : Key} (names : s.Names b k)
    (data : D) :
    (store s).step (.write p k data) (store (s.set b { s.buf b with data := data })) := by
  have after := inv.modify mine data
  have keys := @names_update _ _ _ s (s.set b { s.buf b with data := data }) b
    { s.buf b with data := data } rfl rfl rfl
  have valid := inv.loaded p b mine
  have content : (s.set b { s.buf b with data := data }).content =
      Function.update s.content k data := by
    funext l
    by_cases here : l = k
    · subst here
      rw [Function.update_self, after.content_of ((keys b l).mpr names),
        filled_valid (by simpa using valid)]
      simp
    · rw [Function.update_of_ne here]
      refine inv.content_congr after (fun c => keys c l) (fun c there => ?_) fun _ => rfl
      have apart : c ≠ b := by
        rintro rfl
        exact here (there.key_unique names)
      rw [Inv.filled, Inv.filled, buf_set, Function.update_of_ne apart]
      rfl
  have holder : (s.set b { s.buf b with data := data }).holder = s.holder := by
    funext l
    exact inv.holder_congr after fun q c => by rw [keys, held_set]
  exact ⟨inv.holder_iff.mpr ⟨b, names, mine⟩, by rw [store, content, holder]; rfl⟩

theorem store_bwrite (inv : s.Inv) (mine : b ∈ s.held p) : store (s.bwrite p b) = store s := by
  have after := inv.bwrite mine
  have frame := @Inv.disk_bwrite _ _ _ _ _ _ inv mine
  have buf : (s.bwrite p b).buf = s.buf := by rw [inv.bwrite_eq mine]
  have held : (s.bwrite p b).held = s.held := by rw [inv.bwrite_eq mine]
  generalize s.bwrite p b = t at after frame buf held ⊢
  have keys : ∀ c k, t.Names c k ↔ s.Names c k := fun c k => by rw [Names, Names, buf]
  refine store_congr (fun k => ?_) fun k => inv.holder_congr after fun q c => by rw [keys, held]
  refine inv.content_congr after (fun c => keys c k) (fun c there => ?_) fun missing => ?_
  · by_cases valid : (s.buf c).valid = true
    · rw [filled_valid valid, filled_valid (buf ▸ valid), buf]
    · rw [Inv.filled, Inv.filled, buf, if_neg valid, if_neg valid, frame]
      intro same
      obtain rfl := inv.once b c (inv.real mine) same.1 same.2
      exact valid (inv.loaded p b mine)
  · exact frame (missing b)

theorem store_brelse (inv : s.Inv) (user : s.pc p = .user) (mine : b ∈ s.held p) {k : Key}
    (names : s.Names b k) :
    (store s).step (.unlock p k) (store (s.brelse p b)) := by
  have after := inv.brelse user mine
  have buf : (s.brelse p b).buf = s.buf := by rw [inv.brelse_eq mine]
  have held : (s.brelse p b).held = Function.update s.held p ((s.held p).erase b) := by
    rw [inv.brelse_eq mine]
  have disk : (s.brelse p b).disk = s.disk := by rw [inv.brelse_eq mine]
  generalize s.brelse p b = t at after buf held disk ⊢
  have keys : ∀ c k, t.Names c k ↔ s.Names c k := fun c k => by rw [Names, Names, buf]
  have content : t.content = s.content := by
    funext l
    refine inv.content_congr after (fun c => keys c l) (fun c _ => ?_) fun _ => by rw [disk]
    rw [Inv.filled, Inv.filled, buf, disk]
  have holder : t.holder = Function.update s.holder k none := by
    funext l
    by_cases here : l = k
    · subst here
      rw [Function.update_self]
      by_contra taken
      obtain ⟨q, found⟩ := Option.ne_none_iff_exists'.mp taken
      obtain ⟨c, there, his⟩ := after.holder_iff.mp found
      obtain rfl := ((keys c l).mp there).buf_unique inv names
      by_cases same : q = p
      · subst same
        rw [held, Function.update_self] at his
        exact (inv.nodup q).not_mem_erase his
      · rw [held, Function.update_of_ne same] at his
        exact same (Option.some.inj ((inv.holder his).symm.trans (inv.holder mine)))
    · rw [Function.update_of_ne here]
      refine holder_elsewhere inv after keys names (fun q c apart => ?_) here
      by_cases same : q = p
      · simp [held, same, List.mem_erase_of_ne apart]
      · simp [held, same]
  exact ⟨inv.holder_iff.mpr ⟨b, names, mine⟩, by rw [store, content, holder]; rfl⟩

theorem refines : Refines (disciplined n m D) (blocks m D) store event where
  init s booted k := by
    have inv := Inv.boot booted
    by_contra taken
    obtain ⟨p, holder⟩ := Option.ne_none_iff_exists'.mp taken
    obtain ⟨b, -, mine⟩ := inv.holder_iff.mp holder
    simp [(booted.pc p).2] at mine
  step s label t reachable taken := by
    obtain ⟨inv, saved⟩ := reachable_saved reachable
    obtain ⟨-, allowed, taken⟩ := taken
    obtain ⟨-, change⟩ := step_cases taken
    cases label with
    | bget p dev blockno =>
        obtain ⟨user, rfl⟩ := change
        exact store_bget inv saved user allowed
    | acquiresleep p =>
        obtain ⟨b, waiting, free, rfl⟩ := change
        exact store_refcnt inv (inv.acquiresleep waiting free) (fun _ => ⟨rfl, rfl, rfl, rfl⟩) rfl
          rfl
    | load p =>
        obtain ⟨b, loading, rfl⟩ := change
        obtain ⟨k, found, names⟩ := key_eq (inv.wanted loading)
        rw [event, loading]
        dsimp only
        rw [found]
        exact store_load inv loading names
    | modify p b data =>
        obtain ⟨-, rfl⟩ := change
        obtain ⟨k, found, names⟩ := key_eq (inv.real allowed)
        rw [event, found]
        exact store_modify inv allowed names data
    | bwrite p b =>
        obtain ⟨-, rfl⟩ := change
        exact store_bwrite inv allowed
    | brelse p b =>
        obtain ⟨user, rfl⟩ := change
        obtain ⟨k, found, names⟩ := key_eq (inv.real allowed)
        rw [event, found]
        exact store_brelse inv user allowed names
    | unref p =>
        obtain ⟨b, releasing, rfl⟩ := change
        exact store_unref inv releasing
    | bpin p b =>
        obtain ⟨-, rfl⟩ := change
        exact store_repin inv (inv.bpin allowed)
    | bunpin p b =>
        obtain ⟨-, rfl⟩ := change
        exact store_repin inv (inv.bunpin allowed.1 allowed.2)

theorem content_boot (booted : Boot s) (k : Key) : s.content k = s.disk k.val.1 k.val.2 := by
  refine (Inv.boot booted).content_uncached fun b names => k.property ?_
  rw [← names.1]
  exact (booted.buf b).2.1

/-- Whatever the steps of the processes, the cache looks like blocks that are locked, written and
unlocked in this order: a process gets the content of the block it locks, and has it as long as it
holds the buffer. A buffer that is written is on the disk. -/
theorem cache_refines : Refines (disciplined n m D) (blocks m D) store event ∧
    (∀ s : State n m D, Boot s → ∀ k, (store s).data k = s.disk k.val.1 k.val.2) ∧
    (∀ s : State n m D, (disciplined n m D).Reachable s → ∀ p b, b ∈ s.held p →
      ∃ k, s.Names b k ∧ (store s).holder k = some p ∧ (store s).data k = (s.buf b).data) ∧
    ∀ s t : State n m D, (disciplined n m D).Reachable s → ∀ p b,
      (disciplined n m D).step s (.bwrite p b) t →
      ∃ k, s.Names b k ∧ t.disk k.val.1 k.val.2 = (store s).data k ∧ t.Clean b := by
  have found : ∀ s : State n m D, (disciplined n m D).Reachable s → ∀ p b, b ∈ s.held p →
      ∃ k, s.Names b k ∧ (store s).holder k = some p ∧ (store s).data k = (s.buf b).data := by
    intro s reachable p b mine
    have inv := reachable_inv reachable.unrestrict
    obtain ⟨k, -, names⟩ := key_eq (inv.real mine)
    refine ⟨k, names, inv.holder_iff.mpr ⟨b, names, mine⟩, ?_⟩
    show s.content k = _
    rw [inv.content_of names, filled_valid (inv.loaded p b mine)]
  refine ⟨refines, fun s => content_boot, found, ?_⟩
  rintro s t reachable p b ⟨-, mine, taken⟩
  obtain ⟨k, names, -, data⟩ := found s reachable p b mine
  have inv := reachable_inv reachable.unrestrict
  obtain ⟨-, -, rfl⟩ := step_cases taken
  refine ⟨k, names, ?_, ?_⟩
  · rw [data, inv.bwrite_eq mine, ← names.1, ← names.2]
    simp
  · rw [Clean, inv.bwrite_eq mine]
    simp

instance (s : State n m ℕ) : ∀ label, Decidable (Saves s label)
  | .brelse _ b => inferInstanceAs
      (Decidable ((s.buf b).data = s.disk (s.buf b).dev (s.buf b).blockno ∨ s.pins b ≠ 0))
  | .bget .. | .acquiresleep .. | .load .. | .modify .. | .bwrite .. | .unref .. | .bpin ..
  | .bunpin .. => .isTrue trivial

def reads (p : Fin m) (blockno : ℕ) : List (Label n m ℕ) :=
  [.bget p 1 blockno, .acquiresleep p, .load p]

def drops (p : Fin m) (b : Fin n) : List (Label n m ℕ) := [.brelse p b, .unref p]

/-- Process `p` writes block 5; the other one reads two more, for which both buffers are recycled;
then block 5 is read again. -/
def evicted (p q : Fin m) (first second : Fin n) : List (Label n m ℕ) :=
  reads p 5 ++ [.modify p first 77, .bwrite p first] ++ drops p first ++
    reads q 6 ++ drops q second ++ reads q 7 ++ drops q first ++ reads p 5

theorem cache_refines_evicted : ∃ s : State 2 2 ℕ, (disciplined 2 2 ℕ).Reachable s ∧
    s.cached 1 6 = none ∧ ∃ k, s.Names 1 k ∧ (store s).holder k = some 0 ∧ (store s).data k = 77 := by
  have sound : ∀ before label after, System.guard Saves (System.guard Uses State.step) before
      label = some after → (disciplined 2 2 ℕ).step before label after :=
    System.guard_sound (System.guard_sound fun _ _ _ taken => taken)
  obtain ⟨s, run, seen⟩ := System.Run.existsOfExecute sound
    (show (System.execute _ (blank 2 2) (evicted 0 1 0 1)).map
      (fun s => (s.cached 1 6, (s.buf 1).data, decide (1 ∈ s.held 0))) =
      some (none, 77, true) by decide)
  simp only [Prod.mk.injEq, decide_eq_true_eq] at seen
  have reachable := run.reachable (.start blank_boot)
  obtain ⟨k, names, holder, data⟩ := cache_refines.2.2.1 s reachable 0 1 seen.2.2
  exact ⟨s, reachable, seen.1, k, names, holder, data.trans seen.2.1⟩

end OsLab.Kernel.Buffers
