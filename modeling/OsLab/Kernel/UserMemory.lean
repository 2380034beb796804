import OsLab.Kernel.PageTableFrames

/-!
What the functions of `vm.c` on user memory do: which entries they leave, and that the
pages they map and unmap are moved between the free list and the table.
-/

namespace OsLab.Kernel

open OsLab.Library

namespace Space

variable {s mid after : Space} {page : ℕ} {pte : Pte}

structure Grows (s after : Space) : Prop where
  balanced : Balanced s.kmem (fun f => s.table.frames.count f) after.kmem
    fun f => after.table.frames.count f
  user : after.kmem.user = s.kmem.user

/-- Pages move between the free list and the table, and a page lent as user memory is mapped by
the table, or was lent before and not mapped by it. -/
structure Moves (s after : Space) : Prop where
  balanced : Balanced s.kmem s.table.own after.kmem after.table.own
  lent : ∀ f, after.kmem.user f = true →
    after.table.Maps f ∨ s.kmem.user f = true ∧ ¬ s.table.Maps f

theorem pages_mono {sz other : ℕ} (less : sz ≤ other) : pages sz ≤ pages other := by
  unfold pages pgRoundUp PGSIZE
  omega

theorem Grows.trans (first : s.Grows mid) (second : mid.Grows after) : s.Grows after :=
  ⟨first.balanced.trans second.balanced, second.user.trans first.user⟩

theorem Moves.trans (first : s.Moves mid) (second : mid.Moves after) : s.Moves after := by
  refine ⟨first.balanced.trans second.balanced, fun f lent => ?_⟩
  rcases second.lent f lent with mapped | ⟨before, unmapped⟩
  · exact .inl mapped
  · rcases first.lent f before with mapped | earlier
    · exact absurd mapped unmapped
    · exact .inr earlier

theorem Moves.refl (s : Space) : s.Moves s := by
  refine ⟨.refl fun _ => rfl, fun f lent => ?_⟩
  by_cases mapped : s.table.Maps f
  · exact .inl mapped
  · exact .inr ⟨lent, mapped⟩

theorem maps_congr {table other : PageTable} (same : ∀ q, other.leaf q = table.leaf q)
    {f : Frame} : other.Maps f ↔ table.Maps f := by
  simp only [PageTable.Maps, same]

theorem walk_grows {found : Bool} (walked : s.walk page = some (after, found)) :
    s.Grows after ∧ ∀ q, after.table.leaf q = s.table.leaf q := by
  rw [walk] at walked
  split at walked
  · obtain ⟨rfl, rfl⟩ := Prod.mk.inj (Option.some.inj walked)
    obtain ⟨balanced, user⟩ := walkMiddle_balanced s.kmem (page / 512 / 512) (page / 512 % 512)
      s.table.middles
    exact ⟨⟨(balanced.frame fun f => [s.table.root].count f).congr
      (by simp [PageTable.frames]) (by simp [PageTable.frames]), user⟩, fun _ => rfl⟩
  · simp at walked

theorem mappages_cases {done : Bool} (mapped : s.mappages page pte = some (after, done)) :
    ∃ mid, s.Grows mid ∧ (∀ q, mid.table.leaf q = s.table.leaf q) ∧
      (done = false ∧ after = mid ∨
        done = true ∧ s.table.leaf page = none ∧ after = mid.enter page pte) := by
  rw [mappages] at mapped
  split at mapped
  · simp at mapped
  · rename_i mid walked
    obtain ⟨rfl, rfl⟩ := Prod.mk.inj (Option.some.inj mapped)
    obtain ⟨grows, same⟩ := walk_grows walked
    exact ⟨mid, grows, same, .inl ⟨rfl, rfl⟩⟩
  · rename_i mid walked
    obtain ⟨grows, same⟩ := walk_grows walked
    split at mapped
    · rename_i unmapped
      obtain ⟨rfl, rfl⟩ := Prod.mk.inj (Option.some.inj mapped)
      exact ⟨mid, grows, same, .inr ⟨rfl, (same page).symm.trans unmapped, rfl⟩⟩
    · simp at mapped

theorem mappages_leaf {done : Bool} (mapped : s.mappages page pte = some (after, done)) :
    s.Grows after ∧ (done = false ∧ (∀ q, after.table.leaf q = s.table.leaf q) ∨
      done = true ∧ s.table.leaf page = none ∧
        ∀ q, after.table.leaf q = if q = page then some pte else s.table.leaf q) := by
  obtain ⟨mid, grows, same, ⟨rfl, rfl⟩ | ⟨rfl, unmapped, rfl⟩⟩ := mappages_cases mapped
  · exact ⟨grows, .inl ⟨rfl, same⟩⟩
  · refine ⟨⟨grows.balanced, grows.user⟩, .inr ⟨rfl, unmapped, fun q => ?_⟩⟩
    rw [leaf_enter, same]

/-- A fresh page is mapped, or nothing changes but the tree. The trapframe's entry bounds user
memory, since mapping over it is a panic. -/
theorem mapNew_cases {r w x u done : Bool} (mapped : s.mapNew page r w x u = some (after, done))
    (armed : s.table.leaf trapframePage ≠ none) (low : page ≤ trapframePage) :
    s.Moves after ∧ (done = false ∧ (∀ q, after.table.leaf q = s.table.leaf q) ∨
      done = true ∧ page < trapframePage ∧ s.table.leaf page = none ∧ ∃ mem, ∀ q,
        after.table.leaf q = if q = page then some ⟨mem, r, w, x, u⟩ else s.table.leaf q) := by
  rw [mapNew] at mapped
  split at mapped
  · obtain ⟨rfl, rfl⟩ := Prod.mk.inj (Option.some.inj mapped)
    exact ⟨.refl s, .inl ⟨rfl, fun _ => rfl⟩⟩
  · rename_i mem kmem got
    have taken : Balanced s.kmem s.table.own (kmem.lend mem)
        (fun f => s.table.own f + [mem].count f) := (Balanced.kalloc got).trans .lend
    have user : ∀ f, (kmem.lend mem).user f = true → f = mem ∨ s.kmem.user f = true := by
      intro f lent
      by_cases same : f = mem
      · exact .inl same
      · exact .inr (by simpa [Kmem.lend, same, Kmem.user_kalloc got] using lent)
    split at mapped
    · simp at mapped
    · rename_i mid entered
      obtain ⟨rfl, rfl⟩ := Prod.mk.inj (Option.some.inj mapped)
      obtain ⟨grown, grows, same, ⟨absurd, -⟩ | ⟨-, unmapped, rfl⟩⟩ := mappages_cases entered
      · simp at absurd
      have unmapped' : grown.table.leaf page = none := (same page).trans unmapped
      have below : page < trapframePage := by
        refine lt_of_le_of_ne low ?_
        rintro rfl
        exact armed unmapped
      have leaves : ∀ q, (grown.enter page ⟨mem, r, w, x, u⟩).table.leaf q =
          if q = page then some ⟨mem, r, w, x, u⟩ else s.table.leaf q := by
        intro q
        rw [leaf_enter, same]
      refine ⟨⟨?_, fun f lent => ?_⟩, .inr ⟨rfl, below, unmapped, mem, leaves⟩⟩
      · refine taken.trans ((grows.balanced.frame fun f =>
          s.table.userFrames.count f + [mem].count f).congr (fun f => ?_) fun f => ?_)
        · rw [PageTable.own, Nat.add_assoc]
        · rw [PageTable.own, userFrames_enter unmapped' below,
            PageTable.userFrames_eq fun q _ => same q]
          rfl
      · by_cases mapped : s.table.Maps f
        · obtain ⟨q, entry, low, here, named⟩ := mapped
          refine .inl ⟨q, entry, low, ?_, named⟩
          rw [leaves, if_neg, here]
          rintro rfl
          simp [unmapped] at here
        · rcases user f (grows.user ▸ lent) with rfl | before
          · exact .inl ⟨page, _, below, by rw [leaves, if_pos rfl], rfl⟩
          · exact .inr ⟨before, mapped⟩
    · rename_i mid entered
      obtain ⟨rfl, rfl⟩ := Prod.mk.inj (Option.some.inj mapped)
      obtain ⟨grown, grows, same, ⟨-, rfl⟩ | ⟨absurd, -⟩⟩ := mappages_cases entered
      · refine ⟨⟨?_, fun f lent => ?_⟩, .inl ⟨rfl, same⟩⟩
        · refine (taken.trans ((grows.balanced.frame fun f =>
            s.table.userFrames.count f + [mem].count f).congr (fun f => ?_) fun f => ?_)).trans
            .kfree
          · rw [PageTable.own, Nat.add_assoc]
          · rw [PageTable.own, PageTable.userFrames_eq fun q _ => same q, Nat.add_assoc]
        · obtain ⟨other, lent⟩ := (Kmem.user_kfree f).mp lent
          rw [maps_congr same]
          by_cases mapped : s.table.Maps f
          · exact .inl mapped
          · rcases user f (grows.user ▸ lent) with rfl | before
            · exact absurd rfl other
            · exact .inr ⟨before, mapped⟩
      · simp at absurd

/-! ### Unmapping -/

theorem clear_moves (mapped : s.table.leaf page = some pte) (below : page < trapframePage) :
    s.Moves (s.clear true page pte) := by
  refine ⟨Balanced.trans (.refl fun f => ?_) .kfree, fun f lent => ?_⟩
  · have split := userFrames_clear true mapped below f
    simp only [PageTable.own, split]
    exact Nat.add_assoc _ _ _
  · obtain ⟨other, before⟩ := (Kmem.user_kfree f).mp lent
    by_cases mapped' : s.table.Maps f
    · obtain ⟨q, entry, low, here, named⟩ := mapped'
      refine .inl ⟨q, entry, low, ?_, named⟩
      rw [leaf_clear, if_neg, here]
      rintro rfl
      obtain rfl := Option.some.inj (here.symm.trans mapped)
      exact other named.symm
    · exact .inr ⟨before, mapped'⟩

theorem uvmunmap_leaf (doFree : Bool) (count q : ℕ) :
    (uvmunmap doFree s page count).table.leaf q =
      if page ≤ q ∧ q < page + count then none else s.table.leaf q := by
  induction count generalizing s page with
  | zero => simp [uvmunmap, show ¬ (page ≤ q ∧ q < page) by omega]
  | succ count ih =>
      rw [uvmunmap]
      split
      · rename_i unmapped
        rw [ih]
        by_cases same : q = page
        · subst q
          simp [unmapped]
        · simp only [show page + 1 ≤ q ∧ q < page + 1 + count ↔ page ≤ q ∧ q < page + (count + 1) by
            omega]
      · rw [ih, leaf_clear]
        by_cases same : q = page
        · subst q
          simp
        · simp only [same, if_false, show page + 1 ≤ q ∧ q < page + 1 + count ↔
            page ≤ q ∧ q < page + (count + 1) by omega]

theorem uvmunmap_frames (doFree : Bool) (count : ℕ) :
    (uvmunmap doFree s page count).table.frames = s.table.frames := by
  induction count generalizing s page with
  | zero => rfl
  | succ count ih =>
      rw [uvmunmap]
      split
      · exact ih
      · exact ih

theorem uvmunmap_kmem (count : ℕ) : (uvmunmap false s page count).kmem = s.kmem := by
  induction count generalizing s page with
  | zero => rfl
  | succ count ih =>
      rw [uvmunmap]
      split
      · exact ih
      · exact ih

theorem uvmunmap_moves {count : ℕ}
    (user : ∀ q, page ≤ q → q < page + count → s.table.leaf q ≠ none → q < trapframePage) :
    s.Moves (uvmunmap true s page count) := by
  induction count generalizing s page with
  | zero => exact .refl s
  | succ count ih =>
      rw [uvmunmap]
      split
      · exact ih fun q lower upper mapped => user q (by omega) (by omega) mapped
      · rename_i pte mapped
        refine (clear_moves mapped (user page (by omega) (by omega) (by simp [mapped]))).trans
          (ih fun q lower upper still => user q (by omega) (by omega) ?_)
        rw [leaf_clear] at still
        split at still
        · simp at still
        · exact still

theorem uvmunmap_special (doFree : Bool) (count : ℕ) (high : trapframePage ≤ page) (f : Frame) :
    (uvmunmap doFree s page count).table.userFrames.count f = s.table.userFrames.count f := by
  refine PageTable.userFrames_eq (fun q below => ?_) f
  rw [uvmunmap_leaf, if_neg (by omega)]

/-! ### Growing and copying -/

theorem uvmallocFrom_cases {start count : ℕ} {w x done : Bool}
    (grown : uvmallocFrom start w x s page count = some (after, done))
    (armed : s.table.leaf trapframePage ≠ none) (low : page ≤ trapframePage)
    (user : ∀ q, start ≤ q → q < page → q < trapframePage) (ordered : start ≤ page) :
    s.Moves after ∧
      (done = true ∧ page + count ≤ trapframePage ∧
          (∀ q, count = 0 ∨ s.table.leaf q ≠ none → after.table.leaf q = s.table.leaf q) ∨
        done = false ∧ ∀ q, after.table.leaf q = if start ≤ q ∧ q < page then none
          else s.table.leaf q) := by
  induction count generalizing s page with
  | zero =>
      obtain ⟨rfl, rfl⟩ := Prod.mk.inj (Option.some.inj grown)
      exact ⟨.refl s, .inl ⟨rfl, low, fun _ _ => rfl⟩⟩
  | succ count ih =>
      rw [uvmallocFrom] at grown
      split at grown
      · simp at grown
      · rename_i mid mapped
        obtain ⟨moves, ⟨absurd, -⟩ | ⟨-, below, unmapped, mem, leaves⟩⟩ :=
          mapNew_cases mapped armed low
        · simp at absurd
        have armed' : mid.table.leaf trapframePage ≠ none := by
          rwa [leaves, if_neg (by omega)]
        obtain ⟨later, ⟨rfl, bound, same⟩ | ⟨rfl, undone⟩⟩ :=
          ih grown armed' below (fun q lower upper => by omega) (by omega)
        · refine ⟨moves.trans later, .inl ⟨rfl, by omega, fun q kept => ?_⟩⟩
          have found : s.table.leaf q ≠ none := kept.resolve_left (by omega)
          have here : mid.table.leaf q = s.table.leaf q := by
            rw [leaves, if_neg]
            rintro rfl
            exact found unmapped
          rw [same q (.inr (by rwa [here])), here]
        · refine ⟨moves.trans later, .inr ⟨rfl, fun q => ?_⟩⟩
          rw [undone]
          by_cases same : q = page
          · subst q
            rw [if_pos ⟨ordered, by omega⟩, if_neg (by omega), unmapped]
          · simp only [leaves, same, if_false, show start ≤ q ∧ q < page + 1 ↔
              start ≤ q ∧ q < page by omega]
      · rename_i mid mapped
        obtain ⟨rfl, rfl⟩ := Prod.mk.inj (Option.some.inj grown)
        obtain ⟨moves, ⟨-, leaves⟩ | ⟨absurd, -⟩⟩ := mapNew_cases mapped armed low
        · refine ⟨moves.trans (uvmunmap_moves fun q lower upper _ => user q lower (by omega)),
            .inr ⟨rfl, fun q => ?_⟩⟩
          rw [uvmunmap_leaf, leaves]
          simp only [show start ≤ q ∧ q < start + (page - start) ↔ start ≤ q ∧ q < page by omega]
        · simp at absurd

theorem uvmalloc_cases {oldsz newsz sz : ℕ} {w x : Bool}
    (grown : uvmalloc s oldsz newsz w x = some (after, sz))
    (armed : s.table.leaf trapframePage ≠ none) (low : pages oldsz ≤ trapframePage) :
    s.Moves after ∧ (∀ q, s.table.leaf q ≠ none → after.table.leaf q = s.table.leaf q) ∧
      pages sz ≤ trapframePage ∧ (sz = 0 → ∀ q, after.table.leaf q = s.table.leaf q) := by
  rw [uvmalloc] at grown
  split at grown
  · obtain ⟨rfl, rfl⟩ := Prod.mk.inj (Option.some.inj grown)
    exact ⟨.refl s, fun _ _ => rfl, low, fun _ _ => rfl⟩
  · rename_i ordered
    obtain ⟨⟨later, done⟩, ran, ends⟩ := Option.map_eq_some_iff.mp grown
    obtain ⟨rfl, rfl⟩ := Prod.mk.inj ends
    obtain ⟨moves, ⟨rfl, bound, same⟩ | ⟨rfl, undone⟩⟩ :=
      uvmallocFrom_cases ran armed low (fun q lower upper => by omega) le_rfl
    · refine ⟨moves, fun q found => same q (.inr found), ?_, fun none q => same q (.inl ?_)⟩
      · simp only [if_true]
        omega
      · simp only [if_true] at none
        subst none
        have less := pages_mono (Nat.zero_le oldsz)
        omega
    · have leaves : ∀ q, later.table.leaf q = s.table.leaf q := by
        intro q
        rw [undone, if_neg (by omega)]
      refine ⟨moves, fun q _ => leaves q, ?_, fun _ => leaves⟩
      simp [pages, pgRoundUp, PGSIZE]

theorem uvmcopyFrom_cases {old : PageTable} {count : ℕ} {done : Bool}
    (copied : uvmcopyFrom old s page count = some (after, done))
    (armed : s.table.leaf trapframePage ≠ none) (low : page + count ≤ trapframePage) :
    s.Moves after ∧ ∀ q, trapframePage ≤ q → after.table.leaf q = s.table.leaf q := by
  induction count generalizing s page with
  | zero =>
      obtain ⟨rfl, rfl⟩ := Prod.mk.inj (Option.some.inj copied)
      exact ⟨.refl s, fun _ _ => rfl⟩
  | succ count ih =>
      rw [uvmcopyFrom] at copied
      split at copied
      · exact ih copied armed (by omega)
      · split at copied
        · simp at copied
        · rename_i mid mapped
          obtain ⟨moves, ⟨absurd, -⟩ | ⟨-, below, unmapped, mem, leaves⟩⟩ :=
            mapNew_cases mapped armed (by omega)
          · simp at absurd
          have high : ∀ q, trapframePage ≤ q → mid.table.leaf q = s.table.leaf q := by
            intro q above
            rw [leaves, if_neg (by omega)]
          obtain ⟨later, same⟩ := ih copied (by rwa [high _ le_rfl]) (by omega)
          exact ⟨moves.trans later, fun q above => (same q above).trans (high q above)⟩
        · rename_i mid mapped
          obtain ⟨rfl, rfl⟩ := Prod.mk.inj (Option.some.inj copied)
          obtain ⟨moves, ⟨-, leaves⟩ | ⟨absurd, -⟩⟩ := mapNew_cases mapped armed (by omega)
          · refine ⟨moves.trans (uvmunmap_moves fun q _ upper _ => by omega), fun q above => ?_⟩
            rw [uvmunmap_leaf, if_neg (by omega), leaves]
          · simp at absurd

/-- `uvmshare` enters the pages of `old` and takes none; when it fails it takes down what it has
entered. -/
theorem uvmshareFrom_cases {old : PageTable} {count : ℕ} {done : Bool}
    (shared : uvmshareFrom old s page count = some (after, done)) :
    s.Grows after ∧ (∀ q, page + count ≤ q → after.table.leaf q = s.table.leaf q) ∧
      (done = true → ∀ q, after.table.leaf q =
        if (page ≤ q ∧ q < page + count) ∧ old.leaf q ≠ none then old.leaf q
        else s.table.leaf q) := by
  induction count generalizing s page with
  | zero =>
      obtain ⟨rfl, rfl⟩ := Prod.mk.inj (Option.some.inj shared)
      refine ⟨⟨.refl fun _ => rfl, rfl⟩, fun _ _ => rfl, fun _ q => ?_⟩
      rw [if_neg fun inside => by omega]
  | succ count ih =>
      rw [uvmshareFrom] at shared
      split at shared
      · rename_i unmapped
        obtain ⟨grows, above, leaves⟩ := ih shared
        refine ⟨grows, fun q high => above q (by omega), fun finished q => ?_⟩
        rw [leaves finished]
        by_cases same : q = page
        · subst q
          simp [unmapped]
        · simp only [show page + 1 ≤ q ∧ q < page + 1 + count ↔
            page ≤ q ∧ q < page + (count + 1) by omega]
      · rename_i pte found
        split at shared
        · simp at shared
        · rename_i mid mapped
          obtain ⟨first, ⟨absurd, -⟩ | ⟨-, unmapped, entered⟩⟩ := mappages_leaf mapped
          · simp at absurd
          obtain ⟨grows, above, leaves⟩ := ih shared
          refine ⟨first.trans grows, fun q high => ?_, fun finished q => ?_⟩
          · rw [above q (by omega), entered, if_neg (by omega)]
          · rw [leaves finished, entered]
            by_cases same : q = page
            · subst q
              simp [found]
            · simp only [same, if_false, show page + 1 ≤ q ∧ q < page + 1 + count ↔
                page ≤ q ∧ q < page + (count + 1) by omega]
        · rename_i mid mapped
          obtain ⟨rfl, rfl⟩ := Prod.mk.inj (Option.some.inj shared)
          obtain ⟨first, ⟨-, same⟩ | ⟨absurd, -⟩⟩ := mappages_leaf mapped
          · refine ⟨⟨?_, ?_⟩, fun q high => ?_, by simp⟩
            · rw [uvmunmap_kmem, uvmunmap_frames]
              exact first.balanced
            · rw [uvmunmap_kmem]
              exact first.user
            · rw [uvmunmap_leaf, if_neg (by omega), same]
          · simp at absurd

/-! ### Taking a table down -/

theorem freewalk_cases {kmem : Kmem} (freed : freewalk s = some kmem) :
    kmem = s.kmem.kfreeAll s.table.frames ∧ ∀ q, s.table.leaf q = none := by
  rw [freewalk] at freed
  split at freed
  · rename_i empty
    refine ⟨(Option.some.inj freed).symm, fun q => AList.lookup_eq_none.mpr ?_⟩
    rw [List.isEmpty_iff] at empty
    simp [AList.mem_keys, AList.keys, empty]
  · simp at freed

end Space

end OsLab.Kernel
