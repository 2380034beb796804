import OsLab.Kernel.UserMemory
import OsLab.Kernel.Memory

/-!
Where the pages of a process go when its slot is filled, its image is loaded and it is
torn down again.
-/

namespace OsLab.Kernel.Memory

open OsLab.Library

variable {n : ℕ}

/-! ### Tables -/

section Tables

variable {s : Space} {kmem after : Kmem} {table : PageTable} {f : Frame}

theorem own_of_unmapped (empty : ∀ q, q < trapframePage → table.leaf q = none) (f : Frame) :
    table.own f = table.frames.count f := by
  have none : table.userFrames.count f = 0 := by
    rw [List.count_eq_zero, PageTable.mem_userFrames]
    rintro ⟨q, pte, below, here, -⟩
    simp [empty q below] at here
  rw [PageTable.own, none, Nat.add_zero]

theorem freewalk_balanced (freed : s.freewalk = some after) :
    Balanced s.kmem (fun f => s.table.frames.count f) after (fun _ => 0) ∧
      ∀ f, after.user f = true → s.kmem.user f = true := by
  obtain ⟨rfl, -⟩ := Space.freewalk_cases freed
  exact ⟨.kfreeAll, fun f => Kmem.user_kfreeAll⟩

theorem trampolinePage_eq : trampolinePage = trapframePage + 1 := by
  decide

theorem bare_leaf (s : Space) (q : ℕ) :
    ((s.uvmunmap false trampolinePage 1).uvmunmap false trapframePage 1).table.leaf q =
      if q = trapframePage ∨ q = trampolinePage then none else s.table.leaf q := by
  rw [Space.uvmunmap_leaf, Space.uvmunmap_leaf]
  by_cases first : q = trapframePage
  · rw [if_pos (by omega), if_pos (.inl first)]
  · by_cases second : q = trampolinePage
    · rw [if_neg (by omega), if_pos (by omega), if_pos (.inr second)]
    · rw [if_neg (by omega), if_neg (by omega), if_neg (by omega)]

theorem bare_own (s : Space) (f : Frame) :
    ((s.uvmunmap false trampolinePage 1).uvmunmap false trapframePage 1).table.own f =
      s.table.own f := by
  rw [PageTable.own, PageTable.own, Space.uvmunmap_frames, Space.uvmunmap_frames,
    Space.uvmunmap_special false 1 le_rfl,
    Space.uvmunmap_special false 1 (by rw [trampolinePage_eq]; omega)]

theorem bare_maps (s : Space) (f : Frame) :
    ((s.uvmunmap false trampolinePage 1).uvmunmap false trapframePage 1).table.Maps f ↔
      s.table.Maps f := by
  have below : ∀ q, q < trapframePage →
      ((s.uvmunmap false trampolinePage 1).uvmunmap false trapframePage 1).table.leaf q =
        s.table.leaf q := by
    intro q low
    rw [bare_leaf, if_neg (by rw [trampolinePage_eq]; omega)]
  simp only [PageTable.Maps]
  refine exists_congr fun q => exists_congr fun pte => and_congr_right fun low => ?_
  rw [below q low]

theorem uvmfree_balanced {sz : ℕ} (freed : s.uvmfree sz = some after)
    (bound : pages sz ≤ trapframePage) :
    Balanced s.kmem s.table.own after (fun _ => 0) ∧
      ∀ f, after.user f = true → s.kmem.user f = true ∧ ¬ s.table.Maps f := by
  have walked : ∀ {mid : Space}, s.Moves mid → mid.freewalk = some after →
      Balanced s.kmem s.table.own after (fun _ => 0) ∧
        ∀ f, after.user f = true → s.kmem.user f = true ∧ ¬ s.table.Maps f := by
    intro mid moves freed
    obtain ⟨balanced, user⟩ := freewalk_balanced freed
    have unmapped := (Space.freewalk_cases freed).2
    refine ⟨moves.balanced.trans (balanced.congr (fun f => ?_) fun _ => rfl), fun f lent => ?_⟩
    · exact own_of_unmapped (fun q _ => unmapped q) f
    · rcases moves.lent f (user f lent) with ⟨q, pte, -, here, -⟩ | before
      · simp [unmapped q] at here
      · exact before
  rw [Space.uvmfree] at freed
  split at freed
  · exact walked (Space.uvmunmap_moves fun q _ upper _ => by omega) freed
  · exact walked (.refl s) freed

theorem procFreepagetable_balanced {sz : ℕ} (freed : procFreepagetable s sz = some after)
    (bound : pages sz ≤ trapframePage) :
    Balanced s.kmem s.table.own after (fun _ => 0) ∧
      ∀ f, after.user f = true → s.kmem.user f = true ∧ ¬ s.table.Maps f := by
  obtain ⟨balanced, user⟩ := uvmfree_balanced freed bound
  rw [Space.uvmunmap_kmem, Space.uvmunmap_kmem] at balanced user
  refine ⟨balanced.congr (fun f => (bare_own s f).symm) fun _ => rfl, fun f lent => ?_⟩
  rw [← bare_maps]
  exact user f lent

def Armed (table : PageTable) : Prop := table.leaf trapframePage ≠ none

theorem procPagetable_some {r : Frame} (made : procPagetable kmem r = some (after, some table)) :
    Balanced kmem (fun _ => 0) after (fun f => table.frames.count f) ∧ after.user = kmem.user ∧
      (∀ q, q < trapframePage → table.leaf q = none) ∧ Armed table := by
  rw [procPagetable] at made
  split at made
  · simp at made
  · rename_i root kmem' got
    split at made
    · simp at made
    · obtain ⟨_, -, ends⟩ := Option.map_eq_some_iff.mp made
      simp at ends
    · rename_i first entered
      split at made
      · simp at made
      · obtain ⟨_, -, ends⟩ := Option.map_eq_some_iff.mp made
        simp at ends
      · rename_i second entered'
        simp only [Option.some.injEq, Prod.mk.injEq] at made
        obtain ⟨rfl, rfl⟩ := made
        obtain ⟨grows, ⟨absurd, -⟩ | ⟨-, -, leaves⟩⟩ := Space.mappages_leaf entered
        · simp at absurd
        obtain ⟨grows', ⟨absurd, -⟩ | ⟨-, -, leaves'⟩⟩ := Space.mappages_leaf entered'
        · simp at absurd
        have taken : Balanced kmem (fun _ => 0) kmem'
            (fun f => (PageTable.frames ⟨root, [], ∅⟩).count f) :=
          (Balanced.kalloc got).congr (fun _ => rfl)
            (by simp [PageTable.frames, middleFrames])
        refine ⟨taken.trans (grows.trans grows').balanced,
          (grows.trans grows').user.trans (Kmem.user_kalloc got), fun q below => ?_, ?_⟩
        · rw [leaves', if_neg (by omega), leaves, if_neg (by rw [trampolinePage_eq]; omega)]
          rfl
        · rw [Armed, leaves', if_pos rfl]
          simp

theorem procPagetable_none {r : Frame} (made : procPagetable kmem r = some (after, none)) :
    Balanced kmem (fun _ => 0) after (fun _ => 0) ∧
      ∀ f, after.user f = true → kmem.user f = true := by
  rw [procPagetable] at made
  split at made
  · obtain ⟨rfl, -⟩ := Prod.mk.inj (Option.some.inj made)
    exact ⟨.refl fun _ => rfl, fun _ => id⟩
  · rename_i root kmem' got
    have taken : Balanced kmem (fun _ => 0) kmem'
        (fun f => (PageTable.frames ⟨root, [], ∅⟩).count f) :=
      (Balanced.kalloc got).congr (fun _ => rfl) (by simp [PageTable.frames, middleFrames])
    split at made
    · simp at made
    · rename_i first entered
      obtain ⟨kmem'', freed, ends⟩ := Option.map_eq_some_iff.mp made
      obtain ⟨rfl, -⟩ := Prod.mk.inj ends
      obtain ⟨grows, -⟩ := Space.mappages_leaf entered
      rw [Space.uvmfree, if_neg (by omega)] at freed
      obtain ⟨balanced, user⟩ := freewalk_balanced freed
      refine ⟨(taken.trans grows.balanced).trans balanced, fun f lent => ?_⟩
      rw [← Kmem.user_kalloc got]
      exact grows.user ▸ user f lent
    · rename_i first entered
      split at made
      · simp at made
      · rename_i second entered'
        obtain ⟨kmem'', freed, ends⟩ := Option.map_eq_some_iff.mp made
        obtain ⟨rfl, -⟩ := Prod.mk.inj ends
        have grows := (Space.mappages_leaf entered).1.trans (Space.mappages_leaf entered').1
        rw [Space.uvmfree, if_neg (by omega)] at freed
        obtain ⟨balanced, user⟩ := freewalk_balanced freed
        rw [Space.uvmunmap_kmem] at balanced user
        rw [Space.uvmunmap_frames] at balanced
        refine ⟨(taken.trans grows.balanced).trans balanced, fun f lent => ?_⟩
        rw [← Kmem.user_kalloc got]
        exact grows.user ▸ user f lent
      · simp at made

end Tables

/-! ### Slots -/

namespace Proc

def kernelFrames (p : Proc n) (f : Frame) : ℕ :=
  p.trapframe.toList.count f + p.sigTf.toList.count f +
    (p.pagetable.elim 0 fun table => table.frames.count f)

def userFrames (p : Proc n) (f : Frame) : ℕ :=
  p.pagetable.elim 0 fun table => table.userFrames.count f

def own (p : Proc n) (f : Frame) : ℕ := p.kernelFrames f + p.userFrames f

def Maps (p : Proc n) (f : Frame) : Prop := ∃ table, p.pagetable = some table ∧ table.Maps f

theorem userFrames_pos {p : Proc n} {f : Frame} : 0 < p.userFrames f ↔ p.Maps f := by
  cases here : p.pagetable with
  | none => simp [userFrames, Maps, here]
  | some table => simp [userFrames, Maps, here, List.count_pos_iff, PageTable.mem_userFrames]

@[simp] theorem kernelFrames_unused (f : Frame) : (unused : Proc n).kernelFrames f = 0 := rfl

@[simp] theorem userFrames_unused (f : Frame) : (unused : Proc n).userFrames f = 0 := rfl

end Proc

section Slots

variable {kmem after : Kmem} {p freed : Proc n}

theorem kfreeIf_balanced (kmem : Kmem) (p : Proc n) (rest : Frame → ℕ) :
    Balanced kmem (fun f => p.trapframe.toList.count f + p.sigTf.toList.count f + rest f)
      ((kmem.kfreeIf p.trapframe).kfreeIf p.sigTf) rest := by
  have first := (Balanced.kfreeIf kmem p.trapframe).frame
    fun f => p.sigTf.toList.count f + rest f
  have second := (Balanced.kfreeIf (kmem.kfreeIf p.trapframe) p.sigTf).frame rest
  exact (first.trans (second.congr (fun f => by simp) fun _ => rfl)).congr
    (fun f => by simp [Nat.add_assoc]) fun f => by simp

theorem freeproc_result (ran : freeproc kmem p = some (after, freed)) : freed = .unused := by
  simp only [freeproc] at ran
  split at ran
  · exact (Prod.mk.inj (Option.some.inj ran)).2.symm
  · split at ran <;> obtain ⟨_, -, ends⟩ := Option.map_eq_some_iff.mp ran <;>
      exact (Prod.mk.inj ends).2.symm

theorem user_kfreeIf_pair {f : Frame}
    (lent : ((kmem.kfreeIf p.trapframe).kfreeIf p.sigTf).user f = true) : kmem.user f = true :=
  Kmem.user_kfreeIf (Kmem.user_kfreeIf lent)

theorem freeproc_process (ran : freeproc kmem p = some (after, freed)) (process : p.isThread = false)
    (bound : pages p.sz ≤ trapframePage) :
    Balanced kmem p.own after (fun _ => 0) ∧
      ∀ f, after.user f = true → kmem.user f = true ∧ ¬ p.Maps f := by
  simp only [freeproc, process] at ran
  cases here : p.pagetable with
  | none =>
      simp only [here] at ran
      obtain ⟨rfl, -⟩ := Prod.mk.inj (Option.some.inj ran)
      refine ⟨(kfreeIf_balanced kmem p fun _ => 0).congr (fun f => ?_) fun _ => rfl,
        fun f lent => ⟨user_kfreeIf_pair lent, by simp [Proc.Maps, here]⟩⟩
      simp [Proc.own, Proc.kernelFrames, Proc.userFrames, here]
  | some table =>
      simp only [here, Bool.false_eq_true, if_false] at ran
      obtain ⟨kmem', done, ends⟩ := Option.map_eq_some_iff.mp ran
      obtain ⟨rfl, -⟩ := Prod.mk.inj ends
      obtain ⟨balanced, user⟩ := procFreepagetable_balanced done bound
      refine ⟨((kfreeIf_balanced kmem p table.own).trans balanced).congr (fun f => ?_)
        fun _ => rfl, fun f lent => ?_⟩
      · simp only [Proc.own, Proc.kernelFrames, Proc.userFrames, here, Option.elim, PageTable.own]
        omega
      · obtain ⟨before, unmapped⟩ := user f lent
        refine ⟨user_kfreeIf_pair before, ?_⟩
        rintro ⟨other, same, mapped⟩
        obtain rfl := Option.some.inj (here.symm.trans same)
        exact unmapped mapped

theorem freeproc_thread (ran : freeproc kmem p = some (after, freed)) (thread : p.isThread = true) :
    Balanced kmem p.kernelFrames after (fun _ => 0) ∧
      ∀ f, after.user f = true → kmem.user f = true := by
  simp only [freeproc, thread] at ran
  cases here : p.pagetable with
  | none =>
      simp only [here] at ran
      obtain ⟨rfl, -⟩ := Prod.mk.inj (Option.some.inj ran)
      refine ⟨(kfreeIf_balanced kmem p fun _ => 0).congr (fun f => ?_) fun _ => rfl,
        fun f lent => user_kfreeIf_pair lent⟩
      simp [Proc.kernelFrames, here]
  | some table =>
      simp only [here, if_true] at ran
      obtain ⟨kmem', done, ends⟩ := Option.map_eq_some_iff.mp ran
      obtain ⟨rfl, -⟩ := Prod.mk.inj ends
      obtain ⟨balanced, user⟩ := freewalk_balanced done
      rw [Space.uvmunmap_kmem, Space.uvmunmap_kmem, Space.uvmunmap_kmem] at balanced user
      rw [Space.uvmunmap_frames, Space.uvmunmap_frames, Space.uvmunmap_frames] at balanced
      refine ⟨((kfreeIf_balanced kmem p fun f => table.frames.count f).trans balanced).congr
        (fun f => ?_) fun _ => rfl, fun f lent => user_kfreeIf_pair (user f lent)⟩
      simp [Proc.kernelFrames, here]

theorem freeproc_bare (ran : freeproc kmem p = some (after, freed)) (process : p.isThread = false)
    (bare : p.sz = 0) :
    Balanced kmem p.kernelFrames after (fun _ => 0) ∧
      ∀ f, after.user f = true → kmem.user f = true ∧ ¬ p.Maps f := by
  have bound : pages p.sz ≤ trapframePage := by simp [bare, pages, pgRoundUp, PGSIZE]
  obtain ⟨balanced, user⟩ := freeproc_process ran process bound
  refine ⟨balanced.congr (fun f => ?_) fun _ => rfl, user⟩
  have none : p.userFrames f = 0 := by
    rw [← Nat.not_lt.trans Nat.le_zero, Proc.userFrames_pos]
    rintro ⟨table, here, q, pte, below, mapped, -⟩
    simp only [freeproc, process, here, Bool.false_eq_true, if_false] at ran
    obtain ⟨kmem', done, -⟩ := Option.map_eq_some_iff.mp ran
    rw [procFreepagetable, Space.uvmfree, bare, if_neg (by omega)] at done
    have unmapped := (Space.freewalk_cases done).2 q
    rw [bare_leaf, if_neg (by rw [trampolinePage_eq]; omega)] at unmapped
    simp [mapped] at unmapped
  rw [Proc.own, none, Nat.add_zero]

def Proc.fresh (pid : Int) (trapframe sigTf : Frame) (table : PageTable) : Proc n :=
  { (.unused : Proc n) with
    state := .USED
    pid := pid
    trapframe := some trapframe
    sigTf := some sigTf
    pagetable := some table }

theorem allocproc_done {pid : Int} {child : Proc n}
    (ran : allocproc kmem .unused pid = some (after, child, true)) :
    ∃ trapframe sigTf table, child = .fresh pid trapframe sigTf table ∧ Armed table ∧
      (∀ q, q < trapframePage → table.leaf q = none) ∧
      Balanced kmem (fun _ => 0) after child.kernelFrames ∧ after.user = kmem.user := by
  have failing : ∀ {kmem' : Kmem} {q : Proc n},
      (freeproc kmem' q).map (fun freed => (freed.1, freed.2, false)) ≠
        some (after, child, true) := by
    intro kmem' q ends
    obtain ⟨_, -, ends⟩ := Option.map_eq_some_iff.mp ends
    simp at ends
  simp only [allocproc] at ran
  split at ran
  · exact absurd ran failing
  · rename_i trapframe kmem₁ got
    split at ran
    · exact absurd ran failing
    · rename_i sigTf kmem₂ got'
      split at ran
      · simp at ran
      · exact absurd ran failing
      · rename_i kmem₃ table made
        simp only [Option.some.injEq, Prod.mk.injEq, and_true] at ran
        obtain ⟨rfl, rfl⟩ := ran
        obtain ⟨balanced, user, unmapped, armed⟩ := procPagetable_some made
        refine ⟨trapframe, sigTf, table, rfl, armed, unmapped, ?_,
          user.trans ((Kmem.user_kalloc got').trans (Kmem.user_kalloc got))⟩
        have taken : Balanced kmem (fun _ => 0) kmem₂
            (fun f => 0 + [trapframe].count f + [sigTf].count f) :=
          (Balanced.kalloc got).trans (.kalloc got')
        refine (taken.trans ((balanced.frame fun f => [trapframe].count f + [sigTf].count f).congr
          (fun f => by omega) fun f => ?_))
        simp only [Proc.kernelFrames, Option.toList_some, Option.elim]
        omega

theorem allocproc_fail {pid : Int} {child : Proc n}
    (ran : allocproc kmem .unused pid = some (after, child, false)) :
    child = .unused ∧ Balanced kmem (fun _ => 0) after (fun _ => 0) ∧
      ∀ f, after.user f = true → kmem.user f = true := by
  have failing : ∀ {kmem' : Kmem} {q : Proc n}, q.isThread = false → q.sz = 0 →
      (freeproc kmem' q).map (fun freed => (freed.1, freed.2, false)) =
        some (after, child, false) →
      Balanced kmem (fun _ => 0) kmem' q.kernelFrames →
      (∀ f, kmem'.user f = true → kmem.user f = true) →
      child = .unused ∧ Balanced kmem (fun _ => 0) after (fun _ => 0) ∧
        ∀ f, after.user f = true → kmem.user f = true := by
    intro kmem' q process bare ends taken user
    obtain ⟨⟨_, freed⟩, done, ends⟩ := Option.map_eq_some_iff.mp ends
    simp only [Prod.mk.injEq, and_true] at ends
    obtain ⟨rfl, rfl⟩ := ends
    obtain ⟨balanced, user'⟩ := freeproc_bare done process bare
    exact ⟨freeproc_result done, taken.trans balanced, fun f lent => user f (user' f lent).1⟩
  simp only [allocproc] at ran
  split at ran
  · exact failing rfl rfl ran (.refl fun _ => rfl) fun _ => id
  · rename_i trapframe kmem₁ got
    have user := Kmem.user_kalloc got
    split at ran
    · refine failing rfl rfl ran ((Balanced.kalloc got).congr (fun _ => rfl) fun f => ?_) ?_
      · simp [Proc.kernelFrames, Proc.unused]
      · rw [user]
        exact fun _ => id
    · rename_i sigTf kmem₂ got'
      have user' := (Kmem.user_kalloc got').trans user
      split at ran
      · simp at ran
      · rename_i kmem₃ made
        obtain ⟨balanced, lent⟩ := procPagetable_none made
        have taken : Balanced kmem (fun _ => 0) kmem₂
            (fun f => 0 + [trapframe].count f + [sigTf].count f) :=
          (Balanced.kalloc got).trans (.kalloc got')
        refine failing rfl rfl ran (taken.trans
          ((balanced.frame fun f => [trapframe].count f + [sigTf].count f).congr
            (fun f => by omega) fun f => ?_)) fun f later => ?_
        · simp [Proc.kernelFrames, Proc.unused]
        · rw [← user']
          exact lent f later
      · simp at ran

end Slots

/-! ### Images -/

section Images

variable {s after : Space} {kmem later : Kmem}

theorem pages_pgRoundUp (sz : ℕ) : pages (pgRoundUp sz) = pages sz := by
  unfold pages pgRoundUp PGSIZE
  omega

theorem uvmclear_moves {page : ℕ} (cleared : s.uvmclear page = some after)
    (armed : Armed s.table) : s.Moves after ∧ Armed after.table := by
  rw [Space.uvmclear] at cleared
  split at cleared
  · simp at cleared
  · rename_i pte found
    obtain rfl := Option.some.inj cleared
    have leaves : ∀ q, (s.enter page { pte with u := false }).table.leaf q =
        if q = page then some { pte with u := false } else s.table.leaf q := Space.leaf_enter
    have count : ∀ f, (s.enter page { pte with u := false }).table.userFrames.count f =
        s.table.userFrames.count f := by
      intro f
      by_cases below : page < trapframePage
      · have unmapped : (s.clear false page pte).table.leaf page = none := by
          rw [Space.leaf_clear, if_pos rfl]
        have entered : ((s.clear false page pte).enter page { pte with u := false }
            ).table.userFrames.count f = _ := Space.userFrames_enter unmapped below f
        rw [Space.userFrames_clear false found below]
        refine Eq.trans ?_ entered
        refine PageTable.userFrames_eq (fun q _ => ?_) f
        rw [leaves, Space.leaf_enter, Space.leaf_clear]
        by_cases same : q = page <;> simp [same]
      · refine PageTable.userFrames_eq (fun q low => ?_) f
        rw [leaves, if_neg (by omega)]
    refine ⟨⟨.refl fun f => ?_, fun f lent => ?_⟩, ?_⟩
    · rw [PageTable.own, PageTable.own, count]
      rfl
    · rw [← PageTable.mem_userFrames, ← PageTable.mem_userFrames, ← List.count_pos_iff,
        ← List.count_pos_iff, count]
      exact (Nat.eq_zero_or_pos _).elim (fun none => .inr ⟨lent, by omega⟩) .inl
    · rw [Armed, leaves]
      split
      · simp
      · exact armed

/-- A new table with the pages mapped in it so far, all taken from `kmem`. -/
structure Built (kmem : Kmem) (s : Space) : Prop where
  balanced : Balanced kmem (fun _ => 0) s.kmem s.table.own
  lent : ∀ f, s.kmem.user f = true → s.table.Maps f ∨ kmem.user f = true
  armed : Armed s.table

theorem Built.moves (built : Built kmem s) (moves : s.Moves after) (armed : Armed after.table) :
    Built kmem after := by
  refine ⟨built.balanced.trans moves.balanced, fun f lent => ?_, armed⟩
  rcases moves.lent f lent with mapped | ⟨before, unmapped⟩
  · exact .inl mapped
  · exact .inr ((built.lent f before).resolve_left unmapped)

theorem built_procPagetable {r : Frame} {table : PageTable}
    (made : procPagetable kmem r = some (later, some table)) : Built kmem ⟨later, table⟩ := by
  obtain ⟨balanced, user, unmapped, armed⟩ := procPagetable_some made
  refine ⟨balanced.congr (fun _ => rfl) (own_of_unmapped unmapped), fun f lent => ?_, armed⟩
  exact .inr (user ▸ lent)

theorem Built.torn {sz : ℕ} (built : Built kmem s) (bound : pages sz ≤ trapframePage)
    (freed : procFreepagetable s sz = some later) :
    Balanced kmem (fun _ => 0) later (fun _ => 0) ∧
      ∀ f, later.user f = true → kmem.user f = true := by
  obtain ⟨balanced, user⟩ := procFreepagetable_balanced freed bound
  refine ⟨built.balanced.trans balanced, fun f lent => ?_⟩
  obtain ⟨before, unmapped⟩ := user f lent
  exact (built.lent f before).resolve_left unmapped

theorem Built.uvmalloc {oldsz newsz sz : ℕ} {w x : Bool} (built : Built kmem s)
    (bound : pages oldsz ≤ trapframePage) (grown : s.uvmalloc oldsz newsz w x = some (after, sz)) :
    Built kmem after ∧ pages sz ≤ trapframePage := by
  obtain ⟨moves, kept, bound', -⟩ := Space.uvmalloc_cases grown built.armed bound
  refine ⟨built.moves moves ?_, bound'⟩
  rw [Armed, kept _ built.armed]
  exact built.armed

theorem Built.loadSegments {segments : List Segment} {sz sz' : ℕ} {done : Bool}
    (built : Built kmem s) (bound : pages sz ≤ trapframePage)
    (loaded : Memory.loadSegments s sz segments = some (after, sz', done)) :
    Built kmem after ∧ pages sz' ≤ trapframePage := by
  induction segments generalizing s sz with
  | nil =>
      simp only [Memory.loadSegments, Option.some.injEq, Prod.mk.injEq] at loaded
      obtain ⟨rfl, rfl, -⟩ := loaded
      exact ⟨built, bound⟩
  | cons ph rest ih =>
      rw [Memory.loadSegments] at loaded
      split at loaded
      · simp only [Option.some.injEq, Prod.mk.injEq] at loaded
        obtain ⟨rfl, rfl, -⟩ := loaded
        exact ⟨built, bound⟩
      · split at loaded
        · simp at loaded
        · rename_i mid grown
          simp only [Option.some.injEq, Prod.mk.injEq] at loaded
          obtain ⟨rfl, rfl, -⟩ := loaded
          exact ⟨(built.uvmalloc bound grown).1, bound⟩
        · rename_i mid sz₁ _ grown
          obtain ⟨built', bound'⟩ := built.uvmalloc bound grown
          split at loaded
          · exact ih built' bound' loaded
          · simp only [Option.some.injEq, Prod.mk.injEq] at loaded
            obtain ⟨rfl, rfl, -⟩ := loaded
            exact ⟨built', bound'⟩

theorem loadImage_cases {trapframe : Frame} {image : Image} {result : Option (PageTable × ℕ)}
    (loaded : loadImage kmem trapframe image = some (later, result)) :
    result = none ∧ Balanced kmem (fun _ => 0) later (fun _ => 0) ∧
        (∀ f, later.user f = true → kmem.user f = true) ∨
      ∃ table sz, result = some (table, sz) ∧ Built kmem ⟨later, table⟩ ∧
        pages sz ≤ trapframePage := by
  have bad : ∀ {s : Space} {sz : ℕ}, Built kmem s → pages sz ≤ trapframePage →
      (procFreepagetable s sz).map (fun kmem => (kmem, (none : Option (PageTable × ℕ)))) =
        some (later, result) →
      result = none ∧ Balanced kmem (fun _ => 0) later (fun _ => 0) ∧
        ∀ f, later.user f = true → kmem.user f = true := by
    intro s sz built bound ends
    obtain ⟨_, freed, ends⟩ := Option.map_eq_some_iff.mp ends
    obtain ⟨rfl, rfl⟩ := Prod.mk.inj ends
    exact ⟨rfl, built.torn bound freed⟩
  simp only [loadImage] at loaded
  split at loaded
  · split at loaded
    · simp at loaded
    · rename_i kmem₁ made
      obtain ⟨rfl, rfl⟩ := Prod.mk.inj (Option.some.inj loaded)
      exact .inl ⟨rfl, procPagetable_none made⟩
    · rename_i kmem₁ table made
      have built := built_procPagetable made
      have none : pages 0 ≤ trapframePage := Nat.zero_le _
      split at loaded
      · simp at loaded
      · rename_i s₁ sz read
        obtain ⟨built, bound⟩ := built.loadSegments none read
        exact .inl (bad built bound loaded)
      · rename_i s₁ sz read
        obtain ⟨built, bound⟩ := built.loadSegments none read
        have rounded : pages (pgRoundUp sz) ≤ trapframePage := by rwa [pages_pgRoundUp]
        split at loaded
        · split at loaded
          · simp at loaded
          · rename_i s₂ grown
            exact .inl (bad (built.uvmalloc rounded grown).1 rounded loaded)
          · rename_i s₂ sz₂ _ grown
            obtain ⟨built, bound⟩ := built.uvmalloc rounded grown
            split at loaded
            · simp at loaded
            · rename_i s₃ cleared
              obtain ⟨moves, armed⟩ := uvmclear_moves cleared built.armed
              have built := built.moves moves armed
              split at loaded
              · obtain ⟨rfl, rfl⟩ := Prod.mk.inj (Option.some.inj loaded)
                exact .inr ⟨_, _, rfl, built, bound⟩
              · exact .inl (bad built bound loaded)
        · exact .inl (bad built bound loaded)
  · obtain ⟨rfl, rfl⟩ := Prod.mk.inj (Option.some.inj loaded)
    exact .inl ⟨rfl, .refl fun _ => rfl, fun _ => id⟩

end Images

end OsLab.Kernel.Memory
