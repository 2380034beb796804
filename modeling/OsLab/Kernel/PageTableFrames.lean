import OsLab.Kernel.PageTable

/-!
Where the page frames go: what a page table holds, and that `walk` and the functions
that map and unmap fresh pages only move frames between it and the free list.
-/

namespace OsLab.Kernel

open OsLab.Library

/-! ### Balances -/

/-- `kmem` has become `after` while a holder of `own` pages has come to hold `own'`: no page is
lost or doubled, provided none was held twice. -/
def Balanced (kmem : Kmem) (own : Frame → ℕ) (after : Kmem) (own' : Frame → ℕ) : Prop :=
  ∀ l, kmem.Holds l → (∀ f, l.count f + own f ≤ 1) →
    ∃ l', after.Holds l' ∧ ∀ f, l'.count f + own' f = l.count f + own f

namespace Balanced

variable {kmem middle after : Kmem} {own own' other : Frame → ℕ} {r : Frame}

theorem refl (same : ∀ f, own' f = own f) : Balanced kmem own kmem own' :=
  fun l holds _ => ⟨l, holds, fun f => by rw [same]⟩

theorem trans (first : Balanced kmem own middle own') (second : Balanced middle own' after other) :
    Balanced kmem own after other := by
  intro l holds bound
  obtain ⟨l', holds', balance⟩ := first l holds bound
  obtain ⟨l'', holds'', balance'⟩ := second l' holds' fun f => by rw [balance]; exact bound f
  exact ⟨l'', holds'', fun f => by rw [balance', balance]⟩

theorem congr {before later : Frame → ℕ} (balanced : Balanced kmem own after own')
    (same : ∀ f, before f = own f) (same' : ∀ f, later f = own' f) :
    Balanced kmem before after later := by
  intro l holds bound
  obtain ⟨l', holds', balance⟩ := balanced l holds fun f => by rw [← same]; exact bound f
  exact ⟨l', holds', fun f => by rw [same, same', balance]⟩

theorem frame (balanced : Balanced kmem own after own') (kept : Frame → ℕ) :
    Balanced kmem (fun f => own f + kept f) after (fun f => own' f + kept f) := by
  intro l holds bound
  obtain ⟨l', holds', balance⟩ := balanced l holds fun f => by
    have total := bound f
    dsimp only at total
    omega
  refine ⟨l', holds', fun f => ?_⟩
  have equal := balance f
  dsimp only
  omega

theorem kalloc (got : kmem.kalloc = some (r, after)) :
    Balanced kmem own after (fun f => own f + [r].count f) := by
  intro l holds _
  obtain ⟨rest, rfl, later⟩ := holds.kalloc got
  refine ⟨rest, later, fun f => ?_⟩
  simp only [List.count_cons, List.count_nil]
  omega

theorem lend : Balanced kmem own (kmem.lend r) own :=
  fun l holds _ => ⟨l, holds.lend, fun _ => rfl⟩

theorem kfree : Balanced kmem (fun f => own f + [r].count f) (kmem.kfree r) own := by
  intro l holds bound
  have taken : r ∉ l := by
    have total := bound r
    dsimp only at total
    rw [List.count_singleton_self] at total
    exact List.count_eq_zero.mp (by omega)
  refine ⟨r :: l, holds.kfree taken, fun f => ?_⟩
  simp only [List.count_cons, List.count_nil]
  omega

theorem kfreeAll {given : List Frame} :
    Balanced kmem (fun f => given.count f) (kmem.kfreeAll given) fun _ => 0 := by
  intro l holds bound
  obtain ⟨l', later, count⟩ := holds.kfreeAll bound
  exact ⟨l', later, count⟩

theorem kfreeIf (kmem : Kmem) (given : Option Frame) :
    Balanced kmem (fun f => given.toList.count f) (kmem.kfreeIf given) fun _ => 0 := by
  intro l holds bound
  obtain ⟨l', later, count⟩ := holds.kfreeIf bound
  exact ⟨l', later, count⟩

end Balanced

/-! ### The tree -/

theorem walkLow_balanced {kmem after : Kmem} {index : ℕ} {lows lows' : List (ℕ × Frame)}
    (walked : walkLow kmem index lows = some (after, lows')) :
    Balanced kmem (fun f => (lows.map Prod.snd).count f) after
      (fun f => (lows'.map Prod.snd).count f) ∧ after.user = kmem.user := by
  induction lows generalizing lows' with
  | nil =>
      obtain ⟨⟨r, kmem'⟩, got, ends⟩ := Option.map_eq_some_iff.mp walked
      obtain ⟨rfl, rfl⟩ := Prod.mk.inj ends
      exact ⟨(Balanced.kalloc got).congr (fun _ => rfl) (by simp), Kmem.user_kalloc got⟩
  | cons low rest ih =>
      rw [walkLow] at walked
      split at walked
      · obtain ⟨rfl, rfl⟩ := Prod.mk.inj (Option.some.inj walked)
        exact ⟨.refl fun _ => rfl, rfl⟩
      · split at walked
        · obtain ⟨⟨r, kmem'⟩, got, ends⟩ := Option.map_eq_some_iff.mp walked
          obtain ⟨rfl, rfl⟩ := Prod.mk.inj ends
          refine ⟨(Balanced.kalloc got).congr (fun _ => rfl) fun f => ?_, Kmem.user_kalloc got⟩
          simp only [List.map_cons, List.count_cons, List.count_nil]
          omega
        · obtain ⟨⟨kmem', found⟩, below, ends⟩ := Option.map_eq_some_iff.mp walked
          obtain ⟨rfl, rfl⟩ := Prod.mk.inj ends
          obtain ⟨balanced, user⟩ := ih below
          exact ⟨(balanced.frame fun f => [low.2].count f).congr (by simp [List.count_cons])
            (by simp [List.count_cons]), user⟩

theorem walkBelow_balanced (kmem : Kmem) (middle : Middle) (low : ℕ) :
    Balanced kmem (fun f => middle.frames.count f) (walkBelow kmem middle low).1
      (fun f => (walkBelow kmem middle low).2.1.frames.count f) ∧
      (walkBelow kmem middle low).1.user = kmem.user := by
  rw [walkBelow]
  split
  · exact ⟨.refl fun _ => rfl, rfl⟩
  · rename_i after lows walked
    obtain ⟨balanced, user⟩ := walkLow_balanced walked
    exact ⟨(balanced.frame fun f => [middle.frame].count f).congr
      (by simp [Middle.frames]) (by simp [Middle.frames]), user⟩

theorem walkNew_balanced {kmem after : Kmem} {index low : ℕ} {r : Frame}
    (got : kmem.kalloc = some (r, after)) :
    Balanced kmem (fun _ => 0) (walkBelow after ⟨index, r, []⟩ low).1
      (fun f => (walkBelow after ⟨index, r, []⟩ low).2.1.frames.count f) ∧
      (walkBelow after ⟨index, r, []⟩ low).1.user = kmem.user := by
  obtain ⟨balanced, user⟩ := walkBelow_balanced after ⟨index, r, []⟩ low
  have taken : Balanced kmem (fun _ => 0) after
      (fun f => (Middle.frames ⟨index, r, []⟩).count f) :=
    (Balanced.kalloc got).congr (fun _ => rfl) (by simp [Middle.frames])
  exact ⟨taken.trans balanced, user.trans (Kmem.user_kalloc got)⟩

theorem walkMiddle_balanced (kmem : Kmem) (index low : ℕ) (middles : List Middle) :
    Balanced kmem (fun f => (middleFrames middles).count f) (walkMiddle kmem index low middles).1
      (fun f => (middleFrames (walkMiddle kmem index low middles).2.1).count f) ∧
      (walkMiddle kmem index low middles).1.user = kmem.user := by
  induction middles with
  | nil =>
      rw [walkMiddle]
      split
      · exact ⟨.refl fun _ => rfl, rfl⟩
      · rename_i r after got
        obtain ⟨balanced, user⟩ := walkNew_balanced got
        exact ⟨balanced.congr (by simp [middleFrames]) (by simp [middleFrames]), user⟩
  | cons middle rest ih =>
      rw [walkMiddle]
      split
      · obtain ⟨balanced, user⟩ := walkBelow_balanced kmem middle low
        exact ⟨(balanced.frame fun f => (middleFrames rest).count f).congr
          (by simp [middleFrames]) (by simp [middleFrames]), user⟩
      · split
        · split
          · exact ⟨.refl fun _ => rfl, rfl⟩
          · rename_i r after got
            obtain ⟨balanced, user⟩ := walkNew_balanced got
            exact ⟨(balanced.frame fun f => (middleFrames (middle :: rest)).count f).congr
              (by simp) (by simp [middleFrames]), user⟩
        · obtain ⟨balanced, user⟩ := ih
          refine ⟨(balanced.frame fun f => middle.frames.count f).congr (fun f => ?_) fun f => ?_,
            user⟩ <;>
          · simp only [middleFrames, List.flatMap_cons, List.count_append]
            omega

/-! ### The leaves -/

namespace PageTable

variable {table : PageTable} {page : ℕ} {pte : Pte}

def userFrames (table : PageTable) : List Frame :=
  (table.leaves.entries.filter fun leaf => leaf.1 < trapframePage).map fun leaf => leaf.2.frame

def Maps (table : PageTable) (frame : Frame) : Prop :=
  ∃ page pte, page < trapframePage ∧ table.leaf page = some pte ∧ pte.frame = frame

def own (table : PageTable) (frame : Frame) : ℕ :=
  table.frames.count frame + table.userFrames.count frame

theorem leaf_eq_some : table.leaf page = some pte ↔ ⟨page, pte⟩ ∈ table.leaves.entries :=
  AList.mem_lookup_iff

theorem mem_userFrames {frame : Frame} : frame ∈ table.userFrames ↔ table.Maps frame := by
  simp only [userFrames, List.mem_map, List.mem_filter, decide_eq_true_eq]
  refine ⟨fun ⟨⟨page, pte⟩, ⟨member, below⟩, named⟩ => ?_, fun ⟨page, pte, below, here, named⟩ => ?_⟩
  · exact ⟨page, pte, below, leaf_eq_some.mpr member, named⟩
  · exact ⟨⟨page, pte⟩, ⟨leaf_eq_some.mp here, below⟩, named⟩

theorem userFrames_le {other : PageTable}
    (less : ∀ page pte, page < trapframePage → table.leaf page = some pte →
      other.leaf page = some pte) (frame : Frame) :
    table.userFrames.count frame ≤ other.userFrames.count frame := by
  have nodup := (List.NodupKeys.nodup table.leaves.nodupKeys).filter
    fun leaf => decide (leaf.1 < trapframePage)
  have within : table.leaves.entries.filter (fun leaf => decide (leaf.1 < trapframePage)) ⊆
      other.leaves.entries.filter fun leaf => decide (leaf.1 < trapframePage) := by
    rintro ⟨page, pte⟩ member
    obtain ⟨member, below⟩ := List.mem_filter.mp member
    exact List.mem_filter.mpr ⟨leaf_eq_some.mp
      (less page pte (by simpa using below) (leaf_eq_some.mpr member)), below⟩
  obtain ⟨sorted, perm, sublist⟩ := List.subperm_of_subset nodup within
  rw [userFrames, ← (perm.map _).count_eq frame]
  exact (sublist.map _).count_le frame

theorem userFrames_eq {other : PageTable}
    (same : ∀ page, page < trapframePage → table.leaf page = other.leaf page) (frame : Frame) :
    table.userFrames.count frame = other.userFrames.count frame :=
  Nat.le_antisymm (userFrames_le (fun page pte below here => by rwa [← same page below]) frame)
    (userFrames_le (fun page pte below here => by rwa [same page below]) frame)

end PageTable

namespace Space

variable {s after : Space} {page : ℕ} {pte : Pte}

theorem leaf_enter (q : ℕ) :
    (s.enter page pte).table.leaf q = if q = page then some pte else s.table.leaf q := by
  by_cases same : q = page
  · subst q
    simp [enter, PageTable.leaf]
  · simp [enter, PageTable.leaf, same]

theorem leaf_clear (doFree : Bool) (q : ℕ) :
    (s.clear doFree page pte).table.leaf q = if q = page then none else s.table.leaf q := by
  by_cases same : q = page
  · subst q
    simp [clear, PageTable.leaf]
  · simp [clear, PageTable.leaf, same]

theorem userFrames_enter (unmapped : s.table.leaf page = none) (below : page < trapframePage)
    (frame : Frame) : (s.enter page pte).table.userFrames.count frame =
      s.table.userFrames.count frame + [pte.frame].count frame := by
  have fresh : page ∉ s.table.leaves := AList.lookup_eq_none.mp unmapped
  simp only [enter, PageTable.userFrames]
  rw [AList.entries_insert_of_notMem fresh]
  simp [below, List.count_cons]

theorem userFrames_clear (doFree : Bool) (mapped : s.table.leaf page = some pte)
    (below : page < trapframePage) (frame : Frame) : s.table.userFrames.count frame =
      (s.clear doFree page pte).table.userFrames.count frame + [pte.frame].count frame := by
  have member : page ∈ s.table.leaves.entries.keys :=
    List.mem_keys_of_mem (PageTable.leaf_eq_some.mp mapped)
  obtain ⟨other, front, back, absent, split, erased⟩ := List.exists_of_kerase member
  have found : s.table.leaf page = some other :=
    PageTable.leaf_eq_some.mpr (by rw [split]; simp)
  obtain rfl := Option.some.inj (found.symm.trans mapped)
  have entries : (s.table.leaves.erase page).entries = s.table.leaves.entries.kerase page := rfl
  simp only [clear, PageTable.userFrames]
  rw [entries, erased, split]
  simp [below, List.count_cons]
  omega

end Space

end OsLab.Kernel
