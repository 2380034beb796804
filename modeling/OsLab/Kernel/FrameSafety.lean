import OsLab.Kernel.MemoryEffect

/-!
Frames in use stay off the free list. Pages shared by `kclone` are not counted, so a call
that gives pages back has to find no other process that still uses them or will give them
back again; in every run of such calls each frame has one owner.
-/

namespace OsLab.Kernel.Memory

open OsLab.Library

variable {n : ℕ} {s t : State n}

/-- The process may still use its memory or give it back: a ZOMBIE thread does neither. -/
def Matters (proc : Proc n) : Prop :=
  proc.state ≠ .UNUSED ∧ ¬ (proc.state = .ZOMBIE ∧ proc.isThread = true)

instance (proc : Proc n) : Decidable (Matters proc) :=
  inferInstanceAs (Decidable (_ ∧ _))

namespace Proc

def framesFrom (proc : Proc n) (first : ℕ) : List Frame :=
  proc.pagetable.elim [] fun table =>
    (table.leaves.entries.filter fun leaf => first ≤ leaf.1 && leaf.1 < trapframePage).map
      fun leaf => leaf.2.frame

theorem mem_framesFrom {proc : Proc n} {table : PageTable} {first q : ℕ} {pte : Pte}
    (here : proc.pagetable = some table) (mapped : table.leaf q = some pte)
    (lower : first ≤ q) (upper : q < trapframePage) : pte.frame ∈ proc.framesFrom first := by
  simp only [framesFrom, here, Option.elim, List.mem_map, List.mem_filter, Bool.and_eq_true,
    decide_eq_true_eq]
  exact ⟨⟨q, pte⟩, ⟨PageTable.leaf_eq_some.mp mapped, lower, upper⟩, rfl⟩

end Proc

/-- No page that the call gives back is mapped by another process that may still use it or give
it back. -/
def Exclusive (s : State n) (label : Fin n × Op) : Prop :=
  ∀ released ∈ s.releases label.1 label.2, ∀ r, r ≠ released.1 → Matters (s.procs r) →
    ∀ f ∈ (s.procs released.1).framesFrom released.2, (s.procs r).userFrames f = 0

instance (s : State n) (label : Fin n × Op) : Decidable (Exclusive s label) :=
  inferInstanceAs (Decidable (∀ released ∈ s.releases label.1 label.2, _))

/-! ### One owner for each frame -/

def held (proc : Proc n) (f : Frame) : ℕ :=
  proc.kernelFrames f + if Matters proc then proc.userFrames f else 0

/-- With `l` the free list: a page of the kernel has one holder and is not user memory, and user
memory is not free. -/
structure Owned (s : State n) (l : List Frame) : Prop where
  holds : s.kmem.Holds l
  slot : ∀ q f, l.count f + held (s.procs q) f ≤ 1
  kernel : ∀ q r f, q ≠ r → (s.procs q).kernelFrames f + (s.procs r).kernelFrames f ≤ 1
  user : ∀ q r f, q ≠ r → Matters (s.procs r) →
    (s.procs q).kernelFrames f + (s.procs r).userFrames f ≤ 1

variable {l l' : List Frame} {q : Fin n} {proc : Proc n}

theorem held_of_matters (matters : Matters proc) (f : Frame) : held proc f = proc.own f := by
  rw [held, if_pos matters, Proc.own]

theorem held_of_not_matters (idle : ¬ Matters proc) (f : Frame) :
    held proc f = proc.kernelFrames f := by
  rw [held, if_neg idle, Nat.add_zero]

theorem kernelFrames_le_held (proc : Proc n) (f : Frame) : proc.kernelFrames f ≤ held proc f :=
  Nat.le_add_right _ _

@[simp] theorem not_matters_unused : ¬ Matters (.unused : Proc n) := fun matters => matters.1 rfl

theorem Owned.used (owned : Owned s l) {r : Fin n} {f : Frame} (matters : Matters (s.procs r))
    (mapped : 0 < (s.procs r).userFrames f) (q : Fin n) :
    l.count f = 0 ∧ (s.procs q).kernelFrames f = 0 ∧ (s.procs r).userFrames f = 1 := by
  have slot := owned.slot r f
  rw [held_of_matters matters, Proc.own] at slot
  by_cases same : q = r
  · subst same
    omega
  · have apart := owned.user q r f same matters
    omega

theorem Owned.apart (owned : Owned s l) {r : Fin n} {f : Frame} (other : r ≠ q)
    (kernel : 0 < (s.procs r).kernelFrames f) : l.count f + held (s.procs q) f = 0 := by
  have slot := owned.slot r f
  have both := owned.kernel r q f other
  have least := kernelFrames_le_held (s.procs r) f
  by_cases matters : Matters (s.procs q)
  · have user := owned.user r q f other matters
    rw [held_of_matters matters, Proc.own]
    omega
  · rw [held_of_not_matters matters]
    omega

/-- A slot is given other contents. Its frames come from the free list and from what it held, or
are user memory of another process already; what others map does not become free. -/
theorem Owned.replace (owned : Owned s l) (holds : t.kmem.Holds l')
    (procs : t.procs = Function.update s.procs q proc)
    (conserved : ∀ f, l'.count f + proc.kernelFrames f ≤ l.count f + held (s.procs q) f)
    (used : ∀ r f, r ≠ q → Matters (s.procs r) → 0 < (s.procs r).userFrames f →
      l'.count f + proc.kernelFrames f = 0)
    (own : Matters proc → ∀ f, l'.count f + proc.own f ≤ 1)
    (source : Matters proc → ∀ f, 0 < proc.userFrames f →
      (∃ r, Matters (s.procs r) ∧ 0 < (s.procs r).userFrames f) ∨
        0 < l.count f + held (s.procs q) f) : Owned t l' := by
  have here : t.procs q = proc := by rw [procs, Function.update_self]
  have there : ∀ r, r ≠ q → t.procs r = s.procs r := fun r other => by
    rw [procs, Function.update_of_ne other]
  refine ⟨holds, fun r f => ?_, fun q' r f differ => ?_, fun q' r f differ matters => ?_⟩
  · by_cases same : r = q
    · subst same
      rw [here]
      by_cases matters : Matters proc
      · rw [held_of_matters matters]
        exact own matters f
      · rw [held_of_not_matters matters]
        have before := owned.slot r f
        have less := conserved f
        omega
    · rw [there r same]
      have before := owned.slot r f
      have less := conserved f
      by_cases kernel : 0 < (s.procs r).kernelFrames f
      · have none := owned.apart same kernel
        omega
      · by_cases matters : Matters (s.procs r)
        · rw [held_of_matters matters, Proc.own] at before ⊢
          by_cases mapped : 0 < (s.procs r).userFrames f
          · have free := used r f same matters mapped
            omega
          · have bound := owned.slot q f
            omega
        · rw [held_of_not_matters matters] at before ⊢
          have bound := owned.slot q f
          omega
  · have other : ∀ r, r ≠ q → proc.kernelFrames f + (s.procs r).kernelFrames f ≤ 1 := by
      intro r other
      have bound := owned.slot q f
      have slot := owned.slot r f
      have least := kernelFrames_le_held (s.procs r) f
      have less := conserved f
      by_cases kernel : 0 < (s.procs r).kernelFrames f
      · have none := owned.apart other kernel
        omega
      · omega
    by_cases first : q' = q
    · subst first
      rw [here, there r (Ne.symm differ)]
      exact other r (Ne.symm differ)
    · rw [there q' first]
      by_cases second : r = q
      · subst second
        rw [here, Nat.add_comm]
        exact other q' first
      · rw [there r second]
        exact owned.kernel q' r f differ
  · by_cases first : q' = q
    · subst first
      rw [there r (Ne.symm differ)] at matters ⊢
      rw [here]
      have bound := owned.slot q' f
      have less := conserved f
      by_cases mapped : 0 < (s.procs r).userFrames f
      · have free := used r f (Ne.symm differ) matters mapped
        have once := (owned.used matters mapped q').2.2
        omega
      · omega
    · rw [there q' first]
      by_cases second : r = q
      · subst second
        rw [here] at matters ⊢
        have bound := own matters f
        rw [Proc.own] at bound
        have slot := owned.slot q' f
        have least := kernelFrames_le_held (s.procs q') f
        by_cases mapped : 0 < proc.userFrames f
        · have none : (s.procs q').kernelFrames f = 0 := by
            rcases source matters f mapped with ⟨r', matters', mapped'⟩ | taken
            · exact (owned.used matters' mapped' q').2.1
            · by_cases kernel : 0 < (s.procs q').kernelFrames f
              · have gone := owned.apart first kernel
                omega
              · omega
          omega
        · omega
      · rw [there r second] at matters ⊢
        exact owned.user q' r f differ matters

/-! ### Every step -/

theorem Owned.kept (owned : Owned s l) (kept : Kept s t) : ∃ l', Owned t l' := by
  have bound : ∀ f, l.count f + 0 ≤ 1 := fun f => List.nodup_iff_count_le_one.mp owned.holds.nodup f
  obtain ⟨l', holds, balance⟩ := kept.balanced l owned.holds bound
  refine ⟨l', holds, fun r f => ?_, ?_, ?_⟩
  · have same : l'.count f = l.count f := balance f
    rw [kept.procs, same]
    exact owned.slot r f
  · rw [kept.procs]
    exact owned.kernel
  · rw [kept.procs]
    exact owned.user

variable {initproc p : Fin n}

theorem Owned.exited (owned : Owned s l) (running : (s.procs p).state = .RUNNABLE) :
    Owned (s.exited initproc p) l := by
  have fewer : ∀ r, Matters ((s.exited initproc p).procs r) → Matters (s.procs r) := by
    intro r matters
    by_cases same : r = p
    · subst same
      simp [Matters, running]
    · simpa [Matters, State.exited, same] using matters
  have less : ∀ r f, held ((s.exited initproc p).procs r) f ≤ held (s.procs r) f := by
    intro r f
    by_cases matters : Matters ((s.exited initproc p).procs r)
    · rw [held_of_matters matters, held_of_matters (fewer r matters)]
      exact le_rfl
    · rw [held_of_not_matters matters]
      exact Nat.le_add_right _ _
  refine ⟨owned.holds, fun r f => ?_, owned.kernel, fun q r f differ matters => ?_⟩
  · exact (Nat.add_le_add_left (less r f) _).trans (owned.slot r f)
  · exact owned.user q r f differ (fewer r matters)

theorem userFrames_pos_of_leaf {table : PageTable} {q : ℕ} {pte : Pte} (low : q < trapframePage)
    (mapped : table.leaf q = some pte) : 0 < table.userFrames.count pte.frame :=
  List.count_pos_iff.mpr (PageTable.mem_userFrames.mpr ⟨q, pte, low, mapped, rfl⟩)

theorem Owned.moved {op : Op} {old new : PageTable} {sz : ℕ} (owned : Owned s l)
    (running : (s.procs p).state = .RUNNABLE) (allowed : Exclusive s (p, op))
    (moved : Moved s p op old new sz t) : ∃ l', Owned t l' := by
  have matters : Matters (s.procs p) := by simp [Matters, running]
  have own : ∀ f, (s.procs p).own f = ((s.procs p).trapframe.toList.count f +
      (s.procs p).sigTf.toList.count f) + old.own f := by
    intro f
    simp only [Proc.own, Proc.kernelFrames, Proc.userFrames, moved.before, Option.elim,
      PageTable.own]
    omega
  obtain ⟨l', holds, balance⟩ := moved.moves.balanced l owned.holds fun f => by
    have slot := owned.slot p f
    rw [held_of_matters matters, own] at slot
    dsimp only
    omega
  have total : ∀ f, l'.count f + Proc.own { s.procs p with pagetable := some new, sz := sz } f =
      l.count f + (s.procs p).own f := by
    intro f
    have equal : l'.count f + new.own f = l.count f + old.own f := balance f
    rw [own]
    simp only [Proc.own, Proc.kernelFrames, Proc.userFrames, Option.elim, PageTable.own] at equal ⊢
    omega
  refine ⟨l', owned.replace holds moved.procs (fun f => ?_) (fun r f other matters' mapped => ?_)
    (fun _ f => ?_) fun _ f positive => .inr ?_⟩
  · rw [held_of_matters matters, ← total f]
    exact Nat.add_le_add_left (Nat.le_add_right _ _) _
  · obtain ⟨free, kernel, -⟩ := owned.used matters' mapped p
    have equal := total f
    have slot := owned.slot p f
    rw [held_of_matters matters] at slot
    rw [Proc.own, Proc.own, kernel] at equal
    rw [Proc.own, kernel] at slot
    -- either `p` does not map the frame, or it still does
    rcases Nat.eq_zero_or_pos ((s.procs p).userFrames f) with none | positive
    · omega
    · obtain ⟨table, here, q, pte, low, entry, rfl⟩ := Proc.userFrames_pos.mp positive
      obtain rfl := Option.some.inj (here.symm.trans moved.before)
      rcases moved.keeps q pte low entry with kept | ⟨first, releases, lower⟩
      · have still : 0 < Proc.userFrames { s.procs p with pagetable := some new, sz := sz }
            pte.frame := userFrames_pos_of_leaf low kept
        omega
      · have none := allowed _ releases r other matters' pte.frame
          (Proc.mem_framesFrom here entry lower low)
        omega
  · rw [total, ← held_of_matters matters]
    exact owned.slot p f
  · rw [held_of_matters matters, ← total f]
    exact Nat.lt_of_lt_of_le positive ((Nat.le_add_left _ _).trans (Nat.le_add_left _ _))

theorem held_unused (f : Frame) : held (.unused : Proc n) f = 0 := by
  rw [held_of_not_matters not_matters_unused]
  rfl

theorem Owned.spawned {np : Fin n} {child : Proc n} (owned : Owned s l) (holds : t.kmem.Holds l')
    (spawned : Spawned s p np child t)
    (taken : ∀ f, l'.count f + child.kernelFrames f ≤ l.count f)
    (own : ∀ f, l'.count f + child.own f ≤ 1)
    (source : ∀ f, 0 < child.userFrames f →
      (∃ r, Matters (s.procs r) ∧ 0 < (s.procs r).userFrames f) ∨ 0 < l.count f) :
    Owned t l' := by
  have empty : ∀ f, held (s.procs np) f = 0 := fun f => by rw [spawned.free, held_unused]
  refine owned.replace holds spawned.procs (fun f => ?_) (fun r f _ matters mapped => ?_)
    (fun _ => own) fun _ f mapped => ?_
  · rw [empty]
    exact taken f
  · have free := (owned.used matters mapped r).1
    have less := taken f
    omega
  · rw [empty]
    exact source f mapped

theorem Owned.reaped {pp : Fin n} {op : Op} (owned : Owned s l) (reaped : Reaped s p op pp t)
    (back : Balanced s.kmem (held (s.procs pp)) t.kmem fun _ => 0)
    (alone : Matters (s.procs pp) → ∀ r f, r ≠ pp → Matters (s.procs r) →
      0 < (s.procs r).userFrames f → (s.procs pp).userFrames f = 0) : ∃ l', Owned t l' := by
  obtain ⟨l', holds, balance⟩ := back l owned.holds (owned.slot pp)
  have equal : ∀ f, l'.count f = l.count f + held (s.procs pp) f := balance
  refine ⟨l', owned.replace holds reaped.procs (fun f => ?_) (fun r f other matters mapped => ?_)
    (fun absurd => (not_matters_unused absurd).elim)
    fun absurd => (not_matters_unused absurd).elim⟩
  · rw [equal]
    exact le_rfl
  · obtain ⟨free, kernel, -⟩ := owned.used matters mapped pp
    have none : held (s.procs pp) f = 0 := by
      by_cases matters' : Matters (s.procs pp)
      · rw [held_of_matters matters', Proc.own, kernel, alone matters' r f other matters mapped]
      · rw [held_of_not_matters matters', kernel]
    rw [equal, free, none]
    rfl

theorem Shared.userFrames_le {old new : PageTable} {sz : ℕ} (shared : Shared old new sz)
    (f : Frame) : new.userFrames.count f ≤ old.userFrames.count f := by
  refine PageTable.userFrames_le (fun q pte low mapped => ?_) f
  by_cases inside : q < pages sz
  · rwa [← shared.below q inside]
  · simp [shared.above q (by omega) low] at mapped

theorem Owned.step {op : Op} (owned : Owned s l) (running : (s.procs p).state = .RUNNABLE)
    (allowed : Exclusive s (p, op)) (effect : Effect initproc p op s t) : ∃ l', Owned t l' := by
  have bound : ∀ f, l.count f + 0 ≤ 1 := fun f => List.nodup_iff_count_le_one.mp owned.holds.nodup f
  cases effect with
  | kept kept => exact owned.kept kept
  | exited _ same => exact ⟨l, same ▸ owned.exited running⟩
  | moved moved => exact owned.moved running allowed moved
  | @forked np child spawned _ balanced =>
      obtain ⟨l', holds, balance⟩ := balanced l owned.holds bound
      have equal : ∀ f, l'.count f + child.own f = l.count f := balance
      refine ⟨l', owned.spawned holds spawned (fun f => ?_) (fun f => ?_) fun f mapped => .inr ?_⟩
      · rw [← equal f]
        exact Nat.add_le_add_left (Nat.le_add_right _ _) _
      · rw [equal]
        exact bound f
      · rw [← equal f]
        exact Nat.lt_of_lt_of_le mapped ((Nat.le_add_left _ _).trans (Nat.le_add_left _ _))
  | @cloned np child old new spawned _ _ before after shared balanced =>
      obtain ⟨l', holds, balance⟩ := balanced l owned.holds bound
      have equal : ∀ f, l'.count f + child.kernelFrames f = l.count f := balance
      have matters : Matters (s.procs p) := by simp [Matters, running]
      have fewer : ∀ f, child.userFrames f ≤ (s.procs p).userFrames f := by
        intro f
        simp only [Proc.userFrames, before, after, Option.elim]
        exact shared.userFrames_le f
      refine ⟨l', owned.spawned holds spawned (fun f => (equal f).le) (fun f => ?_)
        fun f mapped => .inl ⟨p, matters, Nat.lt_of_lt_of_le mapped (fewer f)⟩⟩
      have slot := owned.slot p f
      have less := fewer f
      rw [held_of_matters matters, Proc.own] at slot
      rw [Proc.own, ← Nat.add_assoc, equal]
      omega
  | @reapedProcess pp reaped process balanced =>
      have matters : Matters (s.procs pp) := by simp [Matters, reaped.zombie, process]
      refine owned.reaped reaped (balanced.congr (held_of_matters matters) fun _ => rfl)
        fun _ r f other matters' mapped => ?_
      have releases : s.releases p op = some (pp, 0) := by
        obtain ⟨tid, found, ⟨rfl, rfl⟩ | ⟨i, rfl, rfl⟩⟩ := reaped.found <;>
          simp [State.releases, State.reaped, found, process]
      rw [← Nat.not_lt.trans Nat.le_zero, Proc.userFrames_pos]
      rintro ⟨table, here, q, pte, low, entry, rfl⟩
      have none := allowed _ releases r other matters' pte.frame
        (Proc.mem_framesFrom here entry (Nat.zero_le q) low)
      omega
  | @reapedThread pp reaped thread balanced =>
      have idle : ¬ Matters (s.procs pp) := by simp [Matters, reaped.zombie, thread]
      exact owned.reaped reaped (balanced.congr (held_of_not_matters idle) fun _ => rfl)
        fun absurd => (idle absurd).elim

theorem boot_owned {frames : List Frame} (distinct : frames.Nodup)
    (booted : boot initproc frames = some s) : ∃ l, Owned s l := by
  obtain ⟨tf, sig, table, -, unmapped, procs, balanced, -, -⟩ := boot_some booted
  have bound := List.nodup_iff_count_le_one.mp distinct
  have alone : ∀ f, ([] : List Frame).count f + frames.count f ≤ 1 := by simpa using bound
  obtain ⟨l₀, holds₀, all⟩ := Kmem.holds_empty.kfreeAll alone
  obtain ⟨l, holds, balance⟩ := balanced l₀ holds₀ fun f => by
    rw [all]
    simpa using bound f
  have equal : ∀ f, l.count f + (Proc.fresh (n := n) 1 tf sig table).kernelFrames f =
      frames.count f := fun f => (balance f).trans (by simp [all])
  have start : Owned ({ s with kmem := Kmem.empty.kfreeAll frames, procs := fun _ => .unused })
      l₀ := by
    refine ⟨holds₀, fun r f => ?_, by simp, by simp⟩
    simp only [held_unused, all]
    simpa using bound f
  have none : ∀ f, (Proc.fresh (n := n) 1 tf sig table).userFrames f = 0 := by
    intro f
    have own := own_of_unmapped unmapped f
    rw [PageTable.own] at own
    simp only [Proc.userFrames, Proc.fresh, Option.elim]
    omega
  refine ⟨l, start.replace holds procs (fun f => ?_) (by simp) (fun _ f => ?_) fun _ f mapped => ?_⟩
  · change l.count f + (Proc.fresh (n := n) 1 tf sig table).kernelFrames f ≤ _
    rw [equal, held_unused, all]
    simp
  · change l.count f + (Proc.fresh (n := n) 1 tf sig table).own f ≤ 1
    rw [Proc.own, none, Nat.add_zero, equal]
    exact bound f
  · exact absurd mapped ((none f).le.not_gt)

/-- In every run whose calls give back only pages that no other process still uses, the free list
is in order, no page is freed twice, and no page that a process maps is free. -/
theorem owned_of_exclusive (reachable : ((system initproc).restrict Exclusive).Reachable s) :
    ∃ l, Owned s l := by
  refine @System.Reachable.invariantWith _ _ _ Shape (fun s => ∃ l, Owned s l)
    (fun _ earlier => reachable_shape earlier.unrestrict) ?_ ?_ s reachable
  · rintro s ⟨frames, distinct, booted⟩
    exact boot_owned distinct booted
  · rintro before ⟨p, op⟩ after shape - ⟨l, owned⟩ ⟨allowed, taken⟩
    obtain ⟨running, effect⟩ := Effect.of_step shape taken
    exact owned.step running allowed effect

/-- No frame of the user memory of a process that can still run is free, and none was freed
twice. -/
def FramesSafe (s : State n) : Prop :=
  s.kmem.refreed = false ∧
    ∀ q f, (s.procs q).state ≠ .UNUSED → (s.procs q).state ≠ .ZOMBIE → (s.procs q).Maps f →
      ¬ s.kmem.OnFreelist f

theorem frames_safe_of_exclusive
    (reachable : ((system initproc).restrict Exclusive).Reachable s) : FramesSafe s := by
  obtain ⟨l, owned⟩ := owned_of_exclusive reachable
  refine ⟨owned.holds.once, fun q f used alive mapped free => ?_⟩
  have matters : Matters (s.procs q) := ⟨used, fun zombie => alive zombie.1⟩
  have gone := (owned.used matters (Proc.userFrames_pos.mpr mapped) q).1
  exact List.count_eq_zero.mp gone (owned.holds.onFreelist.mp free)

/-- A program of one page, with a guard page and a stack page above it. -/
def smallImage : Image := ⟨true, [⟨0, 4096, 4096, 5, true⟩], true, true⟩

/-- A thread exits and is joined before its creator gives pages back. -/
theorem frames_safe_of_exclusive_joined : ∃ s : State 3,
    (s.procs 0).sz = 8192 ∧ (s.procs 1).state = .UNUSED ∧ FramesSafe s := by
  have sound : ∀ before label after, System.guard Exclusive (step (0 : Fin 3)) before label =
      some after → ((system 0).restrict Exclusive).step before label after :=
    System.guard_sound fun _ _ _ taken => taken
  have executed : ((boot 0 (List.range 24)).bind fun s =>
      (System.execute (System.guard Exclusive (step (0 : Fin 3))) s
        [(0, .exec smallImage), (0, .clone), (1, .exit), (0, .join 2), (0, .grow (-4096))]).map
          fun s => ((s.procs 0).sz, (s.procs 1).state)) = some (8192, .UNUSED) := by
    decide +kernel
  obtain ⟨start, booted, executed⟩ := Option.bind_eq_some_iff.mp executed
  obtain ⟨s, run, ends⟩ := System.Run.existsOfExecute sound executed
  obtain ⟨size, unused⟩ := Prod.mk.inj ends
  exact ⟨s, size, unused, frames_safe_of_exclusive (run.reachable
    (.start ⟨List.range 24, List.nodup_range, booted⟩))⟩

/-- A process gives back a page that its thread still maps. -/
theorem shrink_frees_shared : ∃ s : State 3, (system 0).Reachable s ∧ ¬ FramesSafe s := by
  have sound : ∀ before label after, step (0 : Fin 3) before label = some after →
      (system 0).step before label after := fun _ _ _ taken => taken
  have executed : ((boot 0 (List.range 24)).bind fun s => (System.execute (step (0 : Fin 3)) s
      [(0, .exec smallImage), (0, .clone), (0, .grow (-4096))]).map fun s =>
        ((s.procs 1).state, s.kmem.freelist,
          ((s.procs 1).pagetable.bind fun table => table.leaf 2).map Pte.frame)) =
      some (.RUNNABLE, some 11, some 11) := by
    decide +kernel
  obtain ⟨start, booted, executed⟩ := Option.bind_eq_some_iff.mp executed
  obtain ⟨s, run, ends⟩ := System.Run.existsOfExecute sound executed
  simp only [Prod.mk.injEq] at ends
  obtain ⟨running, head, mapped⟩ := ends
  obtain ⟨pte, entry, frame⟩ := Option.map_eq_some_iff.mp mapped
  obtain ⟨table, here, leaf⟩ := Option.bind_eq_some_iff.mp entry
  refine ⟨s, run.reachable (.start ⟨List.range 24, List.nodup_range, booted⟩), fun safe => ?_⟩
  refine safe.2 1 11 (by simp [running]) (by simp [running])
    ⟨table, here, 2, pte, by decide, leaf, frame⟩ ?_
  rw [Kmem.OnFreelist, head]
  exact .here 11

end OsLab.Kernel.Memory
