import OsLab.Kernel.Paging

/-!
What the functions of `vm.c` do to the radix tree of a page table: `walk` makes it grow by
free pages that hold nothing, `mappages` and `uvmunmap` change the entries of level 0, and
`freewalk` gives all its pages back.
-/

namespace OsLab.Kernel.Paging

open OsLab.Library

def format : RadixFormat Frame Word where
  valid := Word.valid
  target := Word.frame
  proper pte := pte.inner = true

def leaf (mem : Frame → Page) (pagetable : Frame) (page : ℕ) : Option Word :=
  format.lookup mem (px page) 2 pagetable

def InTable (mem : Frame → Page) (pagetable : Frame) (f : Frame) : Prop :=
  format.Within mem 2 pagetable f

theorem zero_invalid : (Word.ofNat 0).valid = false := by
  decide

theorem flags_valid {pte : Word} (valid : pte.valid = true) :
    (⟨pte.frame, pte.flags ||| PTE_V⟩ : Word) = pte := by
  have all : ∀ flags : Flags, flags &&& PTE_V ≠ 0 → flags ||| PTE_V = flags := by decide +kernel
  rw [all pte.flags (of_decide_eq_true valid)]

theorem pointer_valid (r : Frame) : (Word.mk r PTE_V).valid = true :=
  decide_eq_true (show PTE_V &&& PTE_V ≠ 0 by decide)

theorem pointer_inner (r : Frame) : (Word.mk r PTE_V).inner = true :=
  decide_eq_true (show PTE_V &&& (PTE_R ||| PTE_W ||| PTE_X) = 0 by decide)

theorem or_valid (perm : Flags) (pa : Frame) : (Word.mk pa (perm ||| PTE_V)).valid = true := by
  have all : ∀ perm : Flags, (perm ||| PTE_V) &&& PTE_V ≠ 0 := by decide +kernel
  simpa [Word.valid] using all perm

/-! ### The allocator -/

namespace Machine

variable {m after : Machine} {r : Frame} {free : List Frame}

theorem kalloc_none (got : m.kalloc = (after, none)) :
    after.kmem = m.kmem ∧ after.mem = m.mem := by
  simp only [kalloc] at got
  split at got
  · obtain ⟨rfl, -⟩ := Prod.mk.inj got
    exact ⟨rfl, rfl⟩
  · split at got
    · obtain ⟨rfl, -⟩ := Prod.mk.inj got
      exact ⟨rfl, rfl⟩
    · simp at got

theorem kalloc_some (got : m.kalloc = (after, some r)) (holds : m.kmem.Holds free) :
    ∃ rest, free = r :: rest ∧ after.kmem.Holds rest ∧ ∀ f, f ≠ r → after.mem f = m.mem f := by
  simp only [kalloc] at got
  split at got
  · simp at got
  · split at got
    · simp at got
    · rename_i first kmem taken
      obtain ⟨rfl, same⟩ := Prod.mk.inj got
      obtain rfl := Option.some.inj same
      obtain ⟨rest, rfl, later⟩ := holds.kalloc taken
      exact ⟨rest, rfl, later, fun f other => Function.update_of_ne other _ _⟩

@[simp] theorem kmem_store (i : Fin 512) (word : Word) : (m.store r i word).kmem = m.kmem := rfl

@[simp] theorem kmem_memset (c : ℕ) : (m.memset r c).kmem = m.kmem := rfl

theorem store_other {f : Frame} (i : Fin 512) (word : Word) (other : f ≠ r) :
    (m.store r i word).mem f = m.mem f := Function.update_of_ne other _ _

theorem store_here (i : Fin 512) (word : Word) :
    (m.store r i word).mem r = Function.update (m.mem r) i word := Function.update_self _ _ _

theorem memset_other {f : Frame} (c : ℕ) (other : f ≠ r) : (m.memset r c).mem f = m.mem f :=
  Function.update_of_ne other _ _

theorem memset_zero (i : Fin 512) : ((m.memset r 0).mem r i).valid = false := by
  simp only [memset, Function.update_self]
  exact zero_invalid

def link (m : Machine) (new pagetable : Frame) (i : Fin 512) : Machine :=
  (m.memset new 0).store pagetable i ⟨new, PTE_V⟩

variable {new pagetable : Frame} {i : Fin 512}

theorem link_here : (m.link new pagetable i).mem pagetable i = ⟨new, PTE_V⟩ := by
  rw [link, store_here, Function.update_self]

theorem link_beside {j : Fin 512} (fresh : new ≠ pagetable) (differs : j ≠ i) :
    (m.link new pagetable i).mem pagetable j = m.mem pagetable j := by
  rw [link, store_here, Function.update_of_ne differs, memset_other _ fresh.symm]

theorem link_other {f : Frame} (other : f ≠ new) (other' : f ≠ pagetable) :
    (m.link new pagetable i).mem f = m.mem f := by
  rw [link, store_other _ _ other', memset_other _ other]

theorem link_blank (i : Fin 512) (fresh : new ≠ pagetable) (j : Fin 512) :
    ((m.link new pagetable i).mem new j).valid = false := by
  rw [link, store_other _ _ fresh]
  exact memset_zero j

end Machine

/-! ### Growing -/

/-- The table below `pagetable` has taken the pages that have left the free list, and no other page has
changed. -/
structure Grown (height : ℕ) (pagetable : Frame) (m : Machine) (free : List Frame) (after : Machine)
    (rest : List Frame) : Prop where
  holds : after.kmem.Holds rest
  fewer : ∀ f ∈ rest, f ∈ free
  tree : format.Tree after.mem height pagetable
  within : ∀ f, format.Within after.mem height pagetable f ↔
    format.Within m.mem height pagetable f ∨ f ∈ free ∧ f ∉ rest
  same : ∀ f, ¬ format.Within after.mem height pagetable f → after.mem f = m.mem f

section Growing

variable {m after : Machine} {free rest : List Frame} {pagetable : Frame} {level page : ℕ}

theorem Grown.graft (holds : after.kmem.Holds rest) (fewer : ∀ f ∈ rest, f ∈ free)
    (tree : format.Tree m.mem (level + 1) pagetable)
    (apart : ∀ f, format.Within m.mem (level + 1) pagetable f → f ∉ free) {i : Fin 512}
    (valid : (after.mem pagetable i).valid = true) (inner : (after.mem pagetable i).inner = true)
    (others : ∀ j, j ≠ i → after.mem pagetable j = m.mem pagetable j)
    (branch : format.Tree after.mem level (after.mem pagetable i).frame)
    (inside : ∀ f, format.Within after.mem level (after.mem pagetable i).frame f ↔
      (m.mem pagetable i).valid = true ∧ format.Within m.mem level (m.mem pagetable i).frame f ∨
        f ∈ free ∧ f ∉ rest)
    (same : ∀ f, f ≠ pagetable → ¬ format.Within after.mem level (after.mem pagetable i).frame f →
      after.mem f = m.mem f) :
    Grown (level + 1) pagetable m free after rest ∧
      ∀ key : ℕ → Fin 512, key (level + 1) ≠ i →
        format.lookup after.mem key (level + 1) pagetable =
          format.lookup m.mem key (level + 1) pagetable := by
  have above : ¬ format.Within after.mem level (after.mem pagetable i).frame pagetable := by
    rw [inside]
    rintro (⟨valid', within⟩ | ⟨member, -⟩)
    · exact (tree i valid').2.2.1 within
    · exact apart pagetable (RadixFormat.within_self _ _ _) member
  have kept : ∀ j, j ≠ i → (m.mem pagetable j).valid = true → ∀ f,
      format.Within m.mem level (m.mem pagetable j).frame f → after.mem f = m.mem f ∧
        ¬ format.Within after.mem level (after.mem pagetable i).frame f := by
    intro j differs valid' f within
    have outside : ¬ format.Within after.mem level (after.mem pagetable i).frame f := by
      rw [inside]
      rintro (⟨valid'', within'⟩ | ⟨member, -⟩)
      · exact differs ((tree j valid').2.2.2 i f valid'' within within')
      · exact apart f (.inr ⟨j, valid', within⟩) member
    refine ⟨same f ?_ outside, outside⟩
    rintro rfl
    exact (tree j valid').2.2.1 within
  have within : ∀ f, format.Within after.mem (level + 1) pagetable f ↔
      format.Within m.mem (level + 1) pagetable f ∨ f ∈ free ∧ f ∉ rest := by
    intro f
    rw [RadixFormat.within_graft valid others fun j differs valid' f within =>
      (kept j differs valid' f within).1]
    refine Iff.trans (or_congr_right (or_congr_left (inside f))) ?_
    refine ⟨?_, ?_⟩
    · rintro (here | (⟨valid', below⟩ | taken) | ⟨j, -, valid', below⟩)
      · exact .inl (.inl here)
      · exact .inl (.inr ⟨i, valid', below⟩)
      · exact .inr taken
      · exact .inl (.inr ⟨j, valid', below⟩)
    · rintro ((here | ⟨j, valid', below⟩) | taken)
      · exact .inl here
      · by_cases way : j = i
        · subst j
          exact .inr (.inl (.inl ⟨valid', below⟩))
        · exact .inr (.inr ⟨j, way, valid', below⟩)
      · exact .inr (.inl (.inr taken))
  refine ⟨⟨holds, fewer, tree.graft inner others branch above kept, within, fun f outside => ?_⟩,
    fun key differs => ?_⟩
  · refine same f ?_ fun below => outside (.inr ⟨i, valid, below⟩)
    rintro rfl
    exact outside (RadixFormat.within_self _ _ _)
  · rw [RadixFormat.lookup_succ, RadixFormat.lookup_succ, others _ differs]
    split
    · rename_i valid'
      exact RadixFormat.lookup_congr fun f within => (kept _ differs valid' f within).1
    · rfl

theorem Grown.link {mid : Machine} {new : Frame} {tail : List Frame} {i : Fin 512}
    (grown : Grown level new (mid.link new pagetable i) tail after rest)
    (tree : format.Tree m.mem (level + 1) pagetable)
    (apart : ∀ f, format.Within m.mem (level + 1) pagetable f → f ∉ new :: tail)
    (once : new ∉ tail) (invalid : (m.mem pagetable i).valid = false)
    (kept : ∀ f, f ≠ new → mid.mem f = m.mem f) :
    after.mem pagetable = (mid.link new pagetable i).mem pagetable ∧
      Grown (level + 1) pagetable m (new :: tail) after rest ∧
      ∀ key : ℕ → Fin 512, key (level + 1) ≠ i →
        format.lookup after.mem key (level + 1) pagetable =
          format.lookup m.mem key (level + 1) pagetable := by
  have root := apart pagetable (RadixFormat.within_self _ _ _)
  rw [List.mem_cons, not_or] at root
  have fresh : new ≠ pagetable := fun same => root.1 same.symm
  have inside : ∀ f, format.Within after.mem level new f ↔ f ∈ new :: tail ∧ f ∉ rest := by
    intro f
    rw [grown.within, RadixFormat.within_of_blank (Machine.link_blank i fresh), List.mem_cons]
    refine ⟨?_, ?_⟩
    · rintro (rfl | ⟨member, gone⟩)
      · exact ⟨.inl rfl, fun member => once (grown.fewer _ member)⟩
      · exact ⟨.inr member, gone⟩
    · rintro ⟨same | member, gone⟩
      · exact .inl same
      · exact .inr ⟨member, gone⟩
  have here : after.mem pagetable = (mid.link new pagetable i).mem pagetable := by
    refine grown.same _ fun within => ?_
    exact apart _ (RadixFormat.within_self _ _ _) ((inside _).mp within).1
  have linked : after.mem pagetable i = ⟨new, PTE_V⟩ := by rw [here, Machine.link_here]
  refine ⟨here, Grown.graft (i := i) grown.holds
    (fun f member => List.mem_cons_of_mem _ (grown.fewer f member)) tree apart
    (by rw [linked]; exact pointer_valid new) (by rw [linked]; exact pointer_inner new) (fun j differs => ?_) (by rw [linked]; exact grown.tree) (fun f => ?_)
    fun f other outside => ?_⟩
  · rw [here, Machine.link_beside fresh differs, kept _ root.1]
  · rw [linked, inside]
    simp [invalid]
  · rw [linked] at outside
    rw [grown.same f outside, Machine.link_other _ other, kept]
    · rintro rfl
      exact outside (RadixFormat.within_self _ _ _)
    · rintro rfl
      exact outside (RadixFormat.within_self _ _ _)

theorem walkFrom_grown {result : Option Frame}
    (walked : walkFrom true page m pagetable level = (after, result)) (holds : m.kmem.Holds free)
    (tree : format.Tree m.mem level pagetable)
    (apart : ∀ f, format.Within m.mem level pagetable f → f ∉ free) :
    ∃ rest, Grown level pagetable m free after rest ∧
      (∀ key : ℕ → Fin 512, format.lookup after.mem key level pagetable =
        format.lookup m.mem key level pagetable) ∧
      ∀ low, result = some low → format.find after.mem (px page) level pagetable = some low := by
  induction level generalizing m free pagetable with
  | zero =>
      obtain ⟨rfl, rfl⟩ := Prod.mk.inj walked
      exact ⟨free, ⟨holds, fun _ => id, tree, fun f => by simp, fun _ _ => rfl⟩, fun _ => rfl,
        fun low same => same⟩
  | succ level ih =>
      simp only [walkFrom] at walked
      by_cases valid : (m.mem pagetable (px page (level + 1))).valid = true
      · rw [if_pos valid] at walked
        obtain ⟨inner, branch, above, once⟩ := tree _ valid
        obtain ⟨rest, grown, values, found⟩ := ih walked holds branch fun f within =>
          apart f (.inr ⟨_, valid, within⟩)
        have here : after.mem pagetable = m.mem pagetable := by
          refine grown.same _ fun within => ?_
          rcases (grown.within _).mp within with below | ⟨member, -⟩
          · exact above below
          · exact apart _ (RadixFormat.within_self _ _ _) member
        obtain ⟨grown', values'⟩ := Grown.graft (i := px page (level + 1)) grown.holds grown.fewer
          tree apart (by rwa [here]) (by rwa [here]) (fun j _ => by rw [here])
          (by rw [here]; exact grown.tree)
          (fun f => by rw [here, grown.within]; simp [valid, format])
          (fun f _ outside => grown.same f (by rwa [here] at outside))
        refine ⟨rest, grown', fun key => ?_, fun low same => ?_⟩
        · by_cases way : key (level + 1) = px page (level + 1)
          · rw [RadixFormat.lookup_succ, RadixFormat.lookup_succ, here, way]
            split
            · exact values key
            · rfl
          · exact values' key way
        · rw [RadixFormat.find, here]
          exact (if_pos valid).trans (found low same)
      · rw [if_neg valid, if_pos trivial] at walked
        split at walked
        · rename_i mid got
          obtain ⟨rfl, rfl⟩ := Prod.mk.inj walked
          obtain ⟨kmem, mem⟩ := Machine.kalloc_none got
          refine ⟨free, ⟨kmem ▸ holds, fun _ => id, mem ▸ tree, fun f => by simp [mem],
            fun f _ => by rw [mem]⟩, fun key => by rw [mem], by simp⟩
        · rename_i mid new got
          obtain ⟨tail, rfl, holds', kept⟩ := Machine.kalloc_some got holds
          have fresh : new ≠ pagetable := by
            rintro rfl
            exact apart _ (RadixFormat.within_self _ _ _) List.mem_cons_self
          have blank := Machine.link_blank (m := mid) (px page (level + 1)) fresh
          have nodup := List.nodup_cons.mp holds.nodup
          obtain ⟨rest, grown, values, found⟩ := ih walked holds'
            (RadixFormat.tree_of_blank blank) fun f within => by
              obtain rfl := (RadixFormat.within_of_blank blank).mp within
              exact nodup.1
          obtain ⟨here, grown', values'⟩ := grown.link tree apart nodup.1 (by simpa using valid)
            kept
          refine ⟨rest, grown', fun key => ?_, fun low same => ?_⟩
          · by_cases way : key (level + 1) = px page (level + 1)
            · rw [RadixFormat.lookup_succ, RadixFormat.lookup_succ, here, way, Machine.link_here]
              refine (if_pos (pointer_valid new)).trans ((values key).trans ?_)
              rw [RadixFormat.lookup_of_blank blank]
              exact (if_neg valid).symm
            · exact values' key way
          · rw [RadixFormat.find, here, Machine.link_here]
            exact (if_pos (pointer_valid new)).trans (found low same)

theorem Grown.trans {mid : Machine} {middle : List Frame}
    (first : Grown level pagetable m free mid middle)
    (second : Grown level pagetable mid middle after rest) :
    Grown level pagetable m free after rest := by
  refine ⟨second.holds, fun f member => first.fewer f (second.fewer f member), second.tree,
    fun f => ?_, fun f outside => ?_⟩
  · rw [second.within, first.within]
    have between := first.fewer f
    have after := second.fewer f
    tauto
  · rw [second.same f outside, first.same]
    exact fun inside => outside ((second.within f).mpr (.inl inside))

end Growing

/-! ### Tables -/

structure Table (m : Machine) (free : List Frame) (pagetable : Frame) : Prop where
  holds : m.kmem.Holds free
  tree : format.Tree m.mem 2 pagetable
  apart : ∀ f, InTable m.mem pagetable f → f ∉ free

theorem px_eq {q page : ℕ} (low : q < 512 ^ 3) (low' : page < 512 ^ 3) :
    (∀ k, k ≤ 2 → px q k = px page k) ↔ q = page := by
  refine ⟨fun same => ?_, fun same _ _ => by rw [same]⟩
  have index : ∀ k, k ≤ 2 → q / 512 ^ k % 512 = page / 512 ^ k % 512 := by
    intro k bound
    simpa [px, Fin.ofNat] using congrArg Fin.val (same k bound)
  have zero := index 0 (by omega)
  have one := index 1 (by omega)
  have two := index 2 (by omega)
  omega

theorem exists_page (key : ℕ → Fin 512) : ∃ q, q < 512 ^ 3 ∧ ∀ k, k ≤ 2 → px q k = key k := by
  refine ⟨((key 2).val * 512 + (key 1).val) * 512 + (key 0).val, by omega, fun k bound => ?_⟩
  apply Fin.ext
  simp only [px, Fin.ofNat]
  match k, bound with
  | 0, _ => omega
  | 1, _ => omega
  | 2, _ => omega

theorem maxPage_lt : maxPage < 512 ^ 3 := by
  decide

section Tables

variable {m after : Machine} {free rest : List Frame} {pagetable low : Frame} {page q : ℕ}

theorem Grown.table (grown : Grown 2 pagetable m free after rest) (table : Table m free pagetable) :
    Table after rest pagetable := by
  refine ⟨grown.holds, grown.tree, fun f inside member => ?_⟩
  rcases (grown.within f).mp inside with before | ⟨-, gone⟩
  · exact table.apart f before (grown.fewer f member)
  · exact gone member

theorem Table.store (table : Table m free pagetable) (bound : page < 512 ^ 3)
    (found : format.find m.mem (px page) 2 pagetable = some low) (word : Word) :
    Grown 2 pagetable m free (m.store low (px page 0) word) free ∧ ∀ q, q < 512 ^ 3 →
      leaf (m.store low (px page 0) word).mem pagetable q =
        if q = page then if word.valid then some word else none else leaf m.mem pagetable q := by
  have same : ∀ f, f ≠ low → (m.store low (px page 0) word).mem f = m.mem f :=
    fun f other => Machine.store_other _ _ other
  obtain ⟨tree, within, -⟩ := table.tree.write found same
  refine ⟨⟨table.holds, fun _ => id, tree, fun f => by simp [within], fun f outside => ?_⟩,
    fun q low' => ?_⟩
  · refine same f ?_
    rintro rfl
    exact outside ((within _).mpr (RadixFormat.within_of_find found))
  · rw [leaf, table.tree.lookup_write found same fun i differs => by
      rw [Machine.store_here, Function.update_of_ne differs]]
    rw [Machine.store_here, Function.update_self]
    by_cases here : q = page
    · rw [if_pos ((px_eq low' bound).mpr here), if_pos here]
      rfl
    · rw [if_neg (mt (px_eq low' bound).mp here), if_neg here]
      rfl

theorem walk_false (bound : page < maxPage) :
    walk false m pagetable page = some (m, format.find m.mem (px page) 2 pagetable) := by
  have loop : ∀ level pagetable, walkFrom false page m pagetable level =
      (m, format.find m.mem (px page) level pagetable) := by
    intro level
    induction level with
    | zero => exact fun _ => rfl
    | succ level ih =>
        intro pagetable
        rw [walkFrom, RadixFormat.find]
        by_cases valid : (m.mem pagetable (px page (level + 1))).valid = true
        · exact (if_pos valid).trans ((ih _).trans (congrArg _ (if_pos valid).symm))
        · exact (if_neg valid).trans (congrArg (Prod.mk m) (if_neg valid).symm)
  rw [walk, if_pos bound, loop]

theorem mappages_spec (table : Table m free pagetable) (bound : page < maxPage)
    (unmapped : leaf m.mem pagetable page = none) (pa : Frame) (perm : Flags) :
    ∃ after done rest, mappages m pagetable page pa perm = some (after, done) ∧
      Grown 2 pagetable m free after rest ∧ ∀ q, q < 512 ^ 3 →
        leaf after.mem pagetable q =
          if done = true ∧ q = page then some ⟨pa, perm ||| PTE_V⟩ else leaf m.mem pagetable q := by
  have bound' := bound.trans maxPage_lt
  rw [mappages, walk, if_pos bound]
  rcases walked : walkFrom true page m pagetable 2 with ⟨mid, result⟩
  obtain ⟨rest, grown, values, found⟩ := walkFrom_grown walked table.holds table.tree table.apart
  cases result with
  | none =>
      exact ⟨mid, false, rest, rfl, grown, fun q _ => (values _).trans (by simp [leaf])⟩
  | some low =>
      have way := found low rfl
      have invalid : (mid.mem low (px page 0)).valid = false := by
        have none := (values (px page)).trans unmapped
        rw [RadixFormat.lookup, way, Option.bind_some] at none
        by_contra valid
        rw [Bool.not_eq_false] at valid
        exact absurd ((if_pos valid).symm.trans none) (by simp)
      obtain ⟨stored, leaves⟩ := (grown.table table).store bound' way ⟨pa, perm ||| PTE_V⟩
      refine ⟨_, true, rest, if_neg (by simp [invalid]), grown.trans stored, fun q low' => ?_⟩
      rw [leaves q low', if_pos (or_valid perm pa)]
      by_cases here : q = page
      · rw [if_pos here, if_pos ⟨rfl, here⟩]
      · rw [if_neg here, if_neg fun both => here both.2]
        exact values _

theorem leaf_of_find (found : format.find m.mem (px page) 2 pagetable = some low) :
    leaf m.mem pagetable page =
      if (m.mem low (px page 0)).valid then some (m.mem low (px page 0)) else none := by
  rw [leaf, RadixFormat.lookup, found]
  rfl

theorem leaf_of_find_none (absent : format.find m.mem (px page) 2 pagetable = none) :
    leaf m.mem pagetable page = none := by
  rw [leaf, RadixFormat.lookup, absent]
  rfl

theorem uvmunmap_spec {count : ℕ} (table : Table m free pagetable) (bound : page + count ≤ maxPage) :
    ∃ after, uvmunmap false pagetable m page count = some after ∧
      Grown 2 pagetable m free after free ∧ ∀ q, q < 512 ^ 3 → leaf after.mem pagetable q =
        if page ≤ q ∧ q < page + count then none else leaf m.mem pagetable q := by
  induction count generalizing m page with
  | zero =>
      refine ⟨m, rfl, ⟨table.holds, fun _ => id, table.tree, fun f => by simp, fun _ _ => rfl⟩,
        fun q _ => ?_⟩
      rw [if_neg (by omega)]
  | succ count ih =>
      have bound' : page < maxPage := by omega
      have later : page + 1 + count ≤ maxPage := by omega
      rw [uvmunmap, walk_false bound']
      -- nothing is mapped at the page itself
      have skip : leaf m.mem pagetable page = none →
          ∃ after, uvmunmap false pagetable m (page + 1) count = some after ∧
            Grown 2 pagetable m free after free ∧ ∀ q, q < 512 ^ 3 → leaf after.mem pagetable q =
              if page ≤ q ∧ q < page + (count + 1) then none else leaf m.mem pagetable q := by
        intro unmapped
        obtain ⟨after, ran, grown, leaves⟩ := ih table later
        refine ⟨after, ran, grown, fun q low => ?_⟩
        rw [leaves q low]
        by_cases here : q = page
        · rw [here, if_neg (by omega), if_pos (by omega), unmapped]
        · simp only [show page + 1 ≤ q ∧ q < page + 1 + count ↔
            page ≤ q ∧ q < page + (count + 1) by omega]
      cases found : format.find m.mem (px page) 2 pagetable with
      | none => exact skip (leaf_of_find_none found)
      | some low =>
          by_cases valid : (m.mem low (px page 0)).valid = true
          · obtain ⟨cleared, leaves⟩ :=
              table.store (bound'.trans maxPage_lt) found (Word.ofNat 0)
            simp only [zero_invalid, Bool.false_eq_true, if_false] at leaves
            obtain ⟨after, ran, grown, leaves'⟩ := ih (cleared.table table) later
            refine ⟨after, (if_pos valid).trans ran, cleared.trans grown, fun q low' => ?_⟩
            rw [leaves' q low', leaves q low']
            by_cases here : q = page
            · rw [here, if_neg (by omega), if_pos rfl, if_pos (by omega)]
            · simp only [here, if_false, show page + 1 ≤ q ∧ q < page + 1 + count ↔
                page ≤ q ∧ q < page + (count + 1) by omega]
          · obtain ⟨after, ran, rest⟩ := skip (by rw [leaf_of_find found, if_neg valid])
            exact ⟨after, (if_neg valid).trans ran, rest⟩

/-- What the loop of `uvmshare` makes of the table `new` in the pages from `page` on: it maps what
`old` maps there, or nothing up to the last of them. -/
structure Sharing (old new : Frame) (m : Machine) (free : List Frame) (page count : ℕ)
    (after : Machine) (done : Bool) (rest : List Frame) : Prop where
  grown : Grown 2 new m free after rest
  shared : done = true → ∀ q, q < 512 ^ 3 → leaf after.mem new q =
    if page ≤ q ∧ q < page + count then leaf m.mem old q else leaf m.mem new q
  undone : done = false → ∀ q, q < 512 ^ 3 → leaf after.mem new q =
    if q < page + count then none else leaf m.mem new q

section Sharing

variable {old new : Frame} {count : ℕ} {done : Bool}

theorem Sharing.skip (absent : leaf m.mem old page = none) (unmapped : leaf m.mem new page = none)
    (sharing : Sharing old new m free (page + 1) count after done rest) :
    Sharing old new m free page (count + 1) after done rest := by
  refine ⟨sharing.grown, fun finished q low => ?_, fun failed q low => ?_⟩
  · rw [sharing.shared finished q low]
    by_cases here : q = page
    · rw [here, if_neg (by omega), if_pos (by omega), absent, unmapped]
    · simp only [show page + 1 ≤ q ∧ q < page + 1 + count ↔
        page ≤ q ∧ q < page + (count + 1) by omega]
  · rw [sharing.undone failed q low]
    simp only [show q < page + 1 + count ↔ q < page + (count + 1) by omega]

theorem Sharing.enter {mid : Machine} {middle : List Frame}
    (grown : Grown 2 new m free mid middle)
    (leaves : ∀ q, q < 512 ^ 3 → leaf mid.mem new q =
      if true = true ∧ q = page then leaf m.mem old page else leaf m.mem new q)
    (kept : ∀ f, InTable m.mem old f → mid.mem f = m.mem f)
    (sharing : Sharing old new mid middle (page + 1) count after done rest) :
    Sharing old new m free page (count + 1) after done rest := by
  refine ⟨grown.trans sharing.grown, fun finished q low => ?_, fun failed q low => ?_⟩
  · rw [sharing.shared finished q low, leaves q low, leaf, RadixFormat.lookup_congr kept]
    by_cases here : q = page
    · rw [here, if_neg (by omega), if_pos ⟨rfl, rfl⟩, if_pos (by omega)]
    · simp only [here, and_false, if_false, show page + 1 ≤ q ∧ q < page + 1 + count ↔
        page ≤ q ∧ q < page + (count + 1) by omega]
      rfl
  · rw [sharing.undone failed q low, leaves q low]
    by_cases here : q = page
    · rw [here, if_pos (by omega), if_pos (by omega)]
    · simp only [here, and_false, if_false, show q < page + 1 + count ↔
        q < page + (count + 1) by omega]

theorem Sharing.fail {mid : Machine} {middle : List Frame}
    (grown : Grown 2 new m free mid middle)
    (leaves : ∀ q, q < 512 ^ 3 → leaf mid.mem new q = leaf m.mem new q)
    (unmapped : ∀ q, page ≤ q → q < page + (count + 1) → leaf m.mem new q = none)
    (grown' : Grown 2 new mid middle after rest)
    (cleared : ∀ q, q < 512 ^ 3 → leaf after.mem new q =
      if 0 ≤ q ∧ q < 0 + page then none else leaf mid.mem new q) :
    Sharing old new m free page (count + 1) after false rest := by
  refine ⟨grown.trans grown', by simp, fun _ q low => ?_⟩
  rw [cleared q low, leaves q low]
  by_cases inside : q < page
  · rw [if_pos (by omega), if_pos (by omega)]
  · rw [if_neg (by omega)]
    by_cases upper : q < page + (count + 1)
    · rw [if_pos upper, unmapped q (by omega) upper]
    · rw [if_neg upper]

/-- `uvmshare` enters what `old` maps, or takes down all that `new` has mapped so far. -/
theorem uvmshareFrom_spec (table : Table m free new)
    (apart : ∀ f, InTable m.mem old f → f ∉ free ∧ ¬ InTable m.mem new f)
    (bound : page + count ≤ maxPage)
    (unmapped : ∀ q, page ≤ q → q < page + count → leaf m.mem new q = none) :
    ∃ after done rest, uvmshareFrom old new m page count = some (after, done) ∧
      Sharing old new m free page count after done rest := by
  induction count generalizing m free page with
  | zero =>
      refine ⟨m, true, free, rfl, ⟨table.holds, fun _ => id, table.tree, fun f => by simp,
        fun _ _ => rfl⟩, fun _ q _ => ?_, by simp⟩
      rw [if_neg (by omega)]
  | succ count ih =>
      have bound' : page < maxPage := by omega
      have later : page + 1 + count ≤ maxPage := by omega
      have blank := unmapped page le_rfl (by omega)
      rw [uvmshareFrom, walk_false bound']
      have skip : leaf m.mem old page = none →
          ∃ after done rest, uvmshareFrom old new m (page + 1) count = some (after, done) ∧
            Sharing old new m free page (count + 1) after done rest := by
        intro absent
        obtain ⟨after, done, rest, ran, sharing⟩ := ih table apart later
          fun q lower upper => unmapped q (by omega) (by omega)
        exact ⟨after, done, rest, ran, sharing.skip absent blank⟩
      cases found : format.find m.mem (px page) 2 old with
      | none => exact skip (leaf_of_find_none found)
      | some low =>
          have entry := leaf_of_find found
          by_cases valid : (m.mem low (px page 0)).valid = true
          · rw [if_pos valid] at entry
            obtain ⟨mid, entered, middle, mapped, grown, leaves⟩ := mappages_spec table bound'
              blank (m.mem low (px page 0)).frame (m.mem low (px page 0)).flags
            rw [flags_valid valid] at leaves
            have table' := grown.table table
            have apart' : ∀ f, InTable m.mem old f → ¬ InTable mid.mem new f := by
              intro f inside
              rw [InTable, grown.within]
              rintro (own | ⟨member, -⟩)
              · exact (apart f inside).2 own
              · exact (apart f inside).1 member
            have kept : ∀ f, InTable m.mem old f → mid.mem f = m.mem f :=
              fun f inside => grown.same f (apart' f inside)
            cases entered with
            | true =>
                obtain ⟨after, done, rest, ran, sharing⟩ := ih table'
                  (fun f inside => by
                    have before := (RadixFormat.within_congr kept).mp inside
                    exact ⟨fun member => (apart f before).1 (grown.fewer f member),
                      apart' f before⟩) later
                  (fun q lower upper => by
                    rw [leaves q (by have := maxPage_lt; omega), if_neg (by omega)]
                    exact unmapped q (by omega) (by omega))
                refine ⟨after, done, rest, ?_, .enter grown (entry ▸ leaves) kept sharing⟩
                exact (if_pos valid).trans (by rw [mapped]; exact ran)
            | false =>
                have whole : 0 + page ≤ maxPage := by omega
                obtain ⟨after, ran, grown', cleared⟩ := uvmunmap_spec table' whole
                refine ⟨after, false, middle, ?_, .fail grown (by simpa using leaves) unmapped
                  grown' cleared⟩
                exact (if_pos valid).trans (by rw [mapped]; simp [ran])
          · obtain ⟨after, done, rest, ran, sharing⟩ := skip (by rw [entry, if_neg valid])
            exact ⟨after, done, rest, (if_neg valid).trans ran, sharing⟩

end Sharing

end Tables

/-! ### Taking a table down -/

/-- The pages of the table below `pagetable` are back on the free list, and no other page has
changed. -/
structure Freed (level : ℕ) (pagetable : Frame) (m : Machine) (free : List Frame) (after : Machine)
    (rest : List Frame) : Prop where
  holds : after.kmem.Holds rest
  back : ∀ f, f ∈ rest ↔ f ∈ free ∨ format.Within m.mem level pagetable f
  same : ∀ f, ¬ format.Within m.mem level pagetable f → after.mem f = m.mem f

section Freeing

variable {m after : Machine} {free rest : List Frame} {pagetable : Frame} {level : ℕ}

/-- Entry `i` of a page-table page is gone, and with it what was below. -/
structure Pruned (level : ℕ) (pagetable : Frame) (i : Fin 512) (m after : Machine) : Prop where
  cut : (after.mem pagetable i).valid = false
  others : ∀ j, j ≠ i → after.mem pagetable j = m.mem pagetable j
  kept : ∀ j, j ≠ i → (m.mem pagetable j).valid = true → ∀ f,
    format.Within m.mem level (m.mem pagetable j).frame f → after.mem f = m.mem f

theorem Pruned.empty {i : Fin 512} (pruned : Pruned level pagetable i m after)
    (empty : ∀ key : ℕ → Fin 512, format.lookup m.mem key (level + 1) pagetable = none)
    (key : ℕ → Fin 512) : format.lookup after.mem key (level + 1) pagetable = none := by
  rw [RadixFormat.lookup_succ]
  by_cases way : key (level + 1) = i
  · rw [way]
    exact if_neg (by simp [format, pruned.cut])
  · rw [pruned.others _ way, ← empty key, RadixFormat.lookup_succ]
    split
    · rename_i valid
      exact RadixFormat.lookup_congr (pruned.kept _ way valid)
    · rfl

theorem Pruned.below {i j : Fin 512} (pruned : Pruned level pagetable i m after) (differs : j ≠ i)
    (f : Frame) :
    (after.mem pagetable j).valid = true ∧
      format.Within after.mem level (after.mem pagetable j).frame f ↔
    (m.mem pagetable j).valid = true ∧ format.Within m.mem level (m.mem pagetable j).frame f := by
  rw [pruned.others j differs]
  exact and_congr_right fun valid => RadixFormat.within_congr (pruned.kept j differs valid)

theorem disjoint (tree : format.Tree m.mem (level + 1) pagetable) {i j : Fin 512} (differs : j ≠ i)
    (valid : (m.mem pagetable i).valid = true) (valid' : (m.mem pagetable j).valid = true)
    {f : Frame} (within : format.Within m.mem level (m.mem pagetable j).frame f) :
    ¬ format.Within m.mem level (m.mem pagetable i).frame f :=
  fun within' => differs ((tree j valid').2.2.2 i f valid within within')

theorem freewalkEntry_spec {below : Machine → Frame → Option Machine} {mid : Machine}
    {middle : List Frame} {i : Fin 512} (tree : format.Tree m.mem (level + 1) pagetable)
    (valid : (m.mem pagetable i).valid = true)
    (ran : below m (m.mem pagetable i).frame = some mid)
    (freed : Freed level (m.mem pagetable i).frame m free mid middle) :
    freewalkEntry below pagetable m i = some (mid.store pagetable i (.ofNat 0)) ∧
      Pruned level pagetable i m (mid.store pagetable i (.ofNat 0)) ∧
      ∀ f, f ≠ pagetable → ¬ format.Within m.mem level (m.mem pagetable i).frame f →
        (mid.store pagetable i (.ofNat 0)).mem f = m.mem f := by
  obtain ⟨inner, -, above, -⟩ := tree i valid
  have elsewhere : ∀ f, f ≠ pagetable → ¬ format.Within m.mem level (m.mem pagetable i).frame f →
      (mid.store pagetable i (.ofNat 0)).mem f = m.mem f := by
    intro f other outside
    rw [Machine.store_other _ _ other, freed.same f outside]
  refine ⟨?_, ⟨?_, fun j differs => ?_, fun j differs valid' f within => ?_⟩, elsewhere⟩
  · have inner' : (m.mem pagetable i).inner = true := inner
    simp [freewalkEntry, valid, inner', ran]
  · rw [Machine.store_here, Function.update_self]
    exact zero_invalid
  · rw [Machine.store_here, Function.update_of_ne differs, freed.same _ above]
  · refine elsewhere f ?_ (disjoint tree differs valid valid' within)
    rintro rfl
    exact (tree j valid').2.2.1 within

theorem freewalkEntries_spec {below : Machine → Frame → Option Machine}
    (spec : ∀ {m : Machine} {free : List Frame} {r : Frame}, m.kmem.Holds free →
      format.Tree m.mem level r → (∀ f, format.Within m.mem level r f → f ∉ free) →
      (∀ key : ℕ → Fin 512, format.lookup m.mem key level r = none) →
      ∃ after rest, below m r = some after ∧ Freed level r m free after rest)
    (todo : List (Fin 512)) (nodup : todo.Nodup) (holds : m.kmem.Holds free)
    (tree : format.Tree m.mem (level + 1) pagetable)
    (apart : ∀ f, format.Within m.mem (level + 1) pagetable f → f ∉ free)
    (empty : ∀ key : ℕ → Fin 512, format.lookup m.mem key (level + 1) pagetable = none) :
    ∃ after rest, todo.foldlM (freewalkEntry below pagetable) m = some after ∧
      after.kmem.Holds rest ∧
      (∀ f, f ∈ rest ↔ f ∈ free ∨ ∃ i ∈ todo, (m.mem pagetable i).valid = true ∧
        format.Within m.mem level (m.mem pagetable i).frame f) ∧
      ∀ f, f ≠ pagetable → (∀ i ∈ todo, (m.mem pagetable i).valid = true →
        ¬ format.Within m.mem level (m.mem pagetable i).frame f) → after.mem f = m.mem f := by
  induction todo generalizing m free with
  | nil => exact ⟨m, free, rfl, holds, fun f => by simp, fun _ _ _ => rfl⟩
  | cons i todo ih =>
      obtain ⟨outside, nodup'⟩ := List.nodup_cons.mp nodup
      rw [List.foldlM_cons]
      by_cases valid : (m.mem pagetable i).valid = true
      · obtain ⟨-, branch, above, -⟩ := tree i valid
        have blank : ∀ key : ℕ → Fin 512,
            format.lookup m.mem key level (m.mem pagetable i).frame = none := by
          intro key
          rw [← empty (Function.update key (level + 1) i)]
          exact (RadixFormat.lookup_below valid).symm
        obtain ⟨mid, middle, ran, freed⟩ := spec holds branch
          (fun f within => apart f (.inr ⟨i, valid, within⟩)) blank
        obtain ⟨entry, pruned, elsewhere⟩ := freewalkEntry_spec tree valid ran freed
        have holds' : (mid.store pagetable i (.ofNat 0)).kmem.Holds middle := freed.holds
        have apart' : ∀ f, format.Within (mid.store pagetable i (.ofNat 0)).mem (level + 1)
            pagetable f → f ∉ middle := by
          intro f within
          rw [freed.back]
          rcases (RadixFormat.within_prune pruned.cut pruned.others pruned.kept).mp within with
            rfl | ⟨j, differs, valid', within'⟩
          · exact not_or.mpr ⟨apart _ (RadixFormat.within_self _ _ _), above⟩
          · exact not_or.mpr ⟨apart f (.inr ⟨j, valid', within'⟩),
              disjoint tree differs valid valid' within'⟩
        obtain ⟨after, rest, ran', holds'', back, same⟩ := ih nodup' holds'
          (tree.prune pruned.cut pruned.others pruned.kept) apart' (pruned.empty empty)
        have remaining : ∀ j ∈ todo, j ≠ i := fun j member same => outside (same ▸ member)
        refine ⟨after, rest, ?_, holds'', fun f => ?_, fun f other none => ?_⟩
        · rw [entry]
          exact ran'
        · rw [back, freed.back, or_assoc]
          refine or_congr_right ?_
          simp only [List.mem_cons, exists_eq_or_imp, valid, true_and]
          exact or_congr_right (exists_congr fun j => and_congr_right fun member =>
            pruned.below (remaining j member) f)
        · rw [same f other fun j member valid' within => ?_,
            elsewhere f other (none i List.mem_cons_self valid)]
          have before := (pruned.below (remaining j member) f).mp ⟨valid', within⟩
          exact none j (List.mem_cons_of_mem _ member) before.1 before.2
      · obtain ⟨after, rest, ran, holds', back, same⟩ := ih nodup' holds tree apart empty
        refine ⟨after, rest, ?_, holds', fun f => ?_, fun f other none => ?_⟩
        · simpa [freewalkEntry, valid] using ran
        · simp [back, valid]
        · exact same f other fun j member => none j (List.mem_cons_of_mem _ member)

theorem Freed.kfree {mid : Machine} {middle : List Frame} (holds : mid.kmem.Holds middle)
    (apart : ∀ f, format.Within m.mem level pagetable f → f ∉ free)
    (back : ∀ f, f ∈ middle ↔ f ∈ free ∨ f ≠ pagetable ∧ format.Within m.mem level pagetable f)
    (same : ∀ f, ¬ format.Within m.mem level pagetable f → mid.mem f = m.mem f) :
    Freed level pagetable m free (mid.kfree pagetable) (pagetable :: middle) := by
  have own : format.Within m.mem level pagetable pagetable := RadixFormat.within_self _ _ _
  have taken : pagetable ∉ middle := by
    rw [back]
    exact not_or.mpr ⟨apart _ own, fun both => both.1 rfl⟩
  refine ⟨holds.kfree taken, fun f => ?_, fun f outside => ?_⟩
  · rw [List.mem_cons, back]
    by_cases here : f = pagetable
    · simp [here, own]
    · simp [here]
  · refine (Machine.memset_other 1 ?_).trans (same f outside)
    rintro rfl
    exact outside own

theorem freewalk_spec (holds : m.kmem.Holds free) (tree : format.Tree m.mem level pagetable)
    (apart : ∀ f, format.Within m.mem level pagetable f → f ∉ free)
    (empty : ∀ key : ℕ → Fin 512, format.lookup m.mem key level pagetable = none) :
    ∃ after rest, freewalk (level + 1) m pagetable = some after ∧
      Freed level pagetable m free after rest := by
  induction level generalizing m free pagetable with
  | zero =>
      have invalid : ∀ i, (m.mem pagetable i).valid = false := by
        intro i
        have none := empty fun _ => i
        rw [RadixFormat.lookup, RadixFormat.find, Option.bind_some] at none
        by_contra valid
        rw [Bool.not_eq_false] at valid
        exact absurd ((if_pos valid).symm.trans none) (by simp)
      have loop : ∀ todo : List (Fin 512),
          todo.foldlM (freewalkEntry (freewalk 0) pagetable) m = some m := by
        intro todo
        induction todo with
        | nil => rfl
        | cons i todo ih => simpa [freewalkEntry, invalid] using ih
      refine ⟨_, _, by rw [freewalk, loop]; rfl, Freed.kfree holds apart (fun f => ?_) fun _ _ => rfl⟩
      simp only [RadixFormat.Within]
      tauto
  | succ level ih =>
      obtain ⟨mid, middle, ran, holds', back, same⟩ := freewalkEntries_spec ih
        (List.finRange 512) (List.nodup_finRange 512) holds tree apart empty
      refine ⟨_, _, by rw [freewalk, ran]; rfl, Freed.kfree holds' apart (fun f => ?_) fun f outside => ?_⟩
      · rw [back]
        refine or_congr_right ⟨?_, ?_⟩
        · rintro ⟨i, -, valid, within⟩
          refine ⟨?_, .inr ⟨i, valid, within⟩⟩
          rintro rfl
          exact (tree i valid).2.2.1 within
        · rintro ⟨other, here | ⟨i, valid, within⟩⟩
          · exact absurd here other
          · exact ⟨i, List.mem_finRange i, valid, within⟩
      · refine same f ?_ fun i _ valid within => outside (.inr ⟨i, valid, within⟩)
        rintro rfl
        exact outside (RadixFormat.within_self _ _ _)

end Freeing

end OsLab.Kernel.Paging
