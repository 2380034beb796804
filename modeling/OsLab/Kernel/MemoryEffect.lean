import OsLab.Kernel.ProcMemory

/-!
What one call does to the memory of the processes: whose pages move, and which
entries of which table change.
-/

namespace OsLab.Kernel.Memory

open OsLab.Library

variable {n : ℕ}

/-! ### Slots in use -/

/-- An UNUSED slot is empty; a slot in use has a table, and its memory lies below `TRAPFRAME`. -/
structure Shape (s : State n) : Prop where
  unused : ∀ q, (s.procs q).state = .UNUSED → s.procs q = .unused
  armed : ∀ q, (s.procs q).state ≠ .UNUSED →
    ∃ table, (s.procs q).pagetable = some table ∧ Armed table
  low : ∀ q, pages (s.procs q).sz ≤ trapframePage

theorem pages_zero : pages 0 ≤ trapframePage := by
  simp [pages, pgRoundUp, PGSIZE]

theorem Shape.replace {s t : State n} (shape : Shape s) {q : Fin n} {proc : Proc n}
    (procs : t.procs = Function.update s.procs q proc)
    (filled : proc = .unused ∨
      proc.state ≠ .UNUSED ∧ pages proc.sz ≤ trapframePage ∧
        ∃ table, proc.pagetable = some table ∧ Armed table) : Shape t := by
  have here : ∀ r, t.procs r = if r = q then proc else s.procs r := by
    intro r
    rw [procs, Function.update_apply]
  constructor <;> intro r <;> rw [here r] <;> by_cases same : r = q
  · simp only [same, if_true]
    exact fun unused => filled.elim id fun live => absurd unused live.1
  · simpa only [same, if_false] using shape.unused r
  · simp only [same, if_true]
    rcases filled with rfl | ⟨-, -, table⟩
    · exact fun used => absurd rfl used
    · exact fun _ => table
  · simpa only [same, if_false] using shape.armed r
  · simp only [same, if_true]
    rcases filled with rfl | ⟨-, bound, -⟩
    · exact pages_zero
    · exact bound
  · simpa only [same, if_false] using shape.low r

namespace State

/-! ### What a call is about to give back or to change -/

def commits (s : State n) (p : Fin n) (image : Image) : Bool :=
  match (s.procs p).trapframe with
  | none => false
  | some trapframe => (loadImage s.kmem trapframe image).any fun loaded => loaded.2.isSome

def reaped (s : State n) (p : Fin n) (tid : Option Int) : Option (Fin n × ℕ) :=
  match s.findZombie p tid with
  | none => none
  | some pp => if (s.procs pp).isThread then none else some (pp, 0)

/-- The process whose user memory goes back to the free list, and the first page of it. -/
def releases (s : State n) (p : Fin n) : Op → Option (Fin n × ℕ)
  | .grow count =>
      let newsz := wrap64 ((s.procs p).sz + count)
      if count < 0 ∧ newsz < (s.procs p).sz then some (p, pages newsz) else none
  | .exec image => if s.commits p image then some (p, 0) else none
  | .wait => s.reaped p none
  | .join tid => s.reaped p (some tid)
  | _ => none

/-- The call changes the size of the process or one of its entries, and does not replace its
memory as a whole. -/
def remaps (s : State n) (p : Fin n) : Op → Bool
  | .grow count =>
      let newsz := wrap64 ((s.procs p).sz + count)
      match (s.procs p).pagetable with
      | none => false
      | some table =>
          if count > 0 then
            newsz ≤ TRAPFRAME &&
              (Space.uvmalloc ⟨s.kmem, table⟩ (s.procs p).sz newsz true false).any fun grown =>
                grown.2 ≠ 0
          else count < 0 && newsz < (s.procs p).sz
  | .sbrk count => count ≠ 0 && (s.procs p).sz + count ≤ TRAPFRAME
  | .fault va =>
      match (s.procs p).pagetable with
      | none => false
      | some table => (Space.vmfault ⟨s.kmem, table⟩ (s.procs p).sz va).any fun faulted => faulted.2
  | _ => false

end State

/-! ### The effects -/

/-- Pages of the kernel may have been taken and given back; no process has changed. -/
structure Kept (s t : State n) : Prop where
  balanced : Balanced s.kmem (fun _ => 0) t.kmem fun _ => 0
  lent : ∀ f, t.kmem.user f = true → s.kmem.user f = true
  procs : t.procs = s.procs
  nextpid : s.nextpid ≤ t.nextpid
  creatorPid : t.creatorPid = s.creatorPid
  split : t.split = s.split

structure Moved (s : State n) (p : Fin n) (op : Op) (old new : PageTable) (sz : ℕ)
    (t : State n) : Prop where
  before : (s.procs p).pagetable = some old
  moves : Space.Moves ⟨s.kmem, old⟩ ⟨t.kmem, new⟩
  armed : Armed new
  low : pages sz ≤ trapframePage
  procs : t.procs = Function.update s.procs p
    { s.procs p with pagetable := some new, sz := sz }
  nextpid : t.nextpid = s.nextpid
  creatorPid : t.creatorPid = s.creatorPid
  keeps : ∀ q pte, q < trapframePage → old.leaf q = some pte → new.leaf q = some pte ∨
    ∃ first, s.releases p op = some (p, first) ∧ first ≤ q
  extent : t.split = s.split ∧ (s.remaps p op = true ∨
      sz = (s.procs p).sz ∧ ∀ q, new.leaf q = old.leaf q) ∨
    t.split = fun q => s.split q || s.parts p q

structure Spawned (s : State n) (p np : Fin n) (child : Proc n) (t : State n) : Prop where
  free : s.procs np = .unused
  state : child.state = .RUNNABLE
  pid : child.pid = s.nextpid
  parent : child.parent = some p
  sz : child.sz = (s.procs p).sz
  armed : ∃ table, child.pagetable = some table ∧ Armed table
  procs : t.procs = Function.update s.procs np child
  nextpid : t.nextpid = s.nextpid + 1

structure Shared (old new : PageTable) (sz : ℕ) : Prop where
  below : ∀ q, q < pages sz → new.leaf q = old.leaf q
  above : ∀ q, pages sz ≤ q → q < trapframePage → new.leaf q = none

structure Reaped (s : State n) (p : Fin n) (op : Op) (pp : Fin n) (t : State n) : Prop where
  zombie : (s.procs pp).state = .ZOMBIE
  parent : (s.procs pp).parent = some p
  procs : t.procs = Function.update s.procs pp .unused
  nextpid : t.nextpid = s.nextpid
  creatorPid : t.creatorPid = s.creatorPid
  split : t.split = s.split
  found : ∃ tid, s.findZombie p tid = some pp ∧ (op = .wait ∧ tid = none ∨
    ∃ i, op = .join i ∧ tid = some i)

inductive Effect (initproc p : Fin n) (op : Op) (s t : State n) : Prop
  | kept : Kept s t → Effect initproc p op s t
  | exited : p ≠ initproc → t = s.exited initproc p → Effect initproc p op s t
  | moved {old new sz} : Moved s p op old new sz t → Effect initproc p op s t
  | forked {np child} : Spawned s p np child t → child.isThread = false →
      Balanced s.kmem (fun _ => 0) t.kmem child.own →
      (∀ f, t.kmem.user f = true → child.Maps f ∨ s.kmem.user f = true) →
      t.creatorPid = s.creatorPid → t.split = s.split → Effect initproc p op s t
  | cloned {np child old new} : Spawned s p np child t → child.isThread = true →
      child.memParent = some p → (s.procs p).pagetable = some old →
      child.pagetable = some new → Shared old new (s.procs p).sz →
      Balanced s.kmem (fun _ => 0) t.kmem child.kernelFrames → t.kmem.user = s.kmem.user →
      t.creatorPid = Function.update s.creatorPid np (s.procs p).pid →
      t.split = Function.update s.split np false → Effect initproc p op s t
  | reapedProcess {pp} : Reaped s p op pp t → (s.procs pp).isThread = false →
      Balanced s.kmem (s.procs pp).own t.kmem (fun _ => 0) →
      (∀ f, t.kmem.user f = true → s.kmem.user f = true ∧ ¬ (s.procs pp).Maps f) →
      Effect initproc p op s t
  | reapedThread {pp} : Reaped s p op pp t → (s.procs pp).isThread = true →
      Balanced s.kmem (s.procs pp).kernelFrames t.kmem (fun _ => 0) →
      (∀ f, t.kmem.user f = true → s.kmem.user f = true) → Effect initproc p op s t

theorem Kept.refl (s : State n) : Kept s s :=
  ⟨.refl fun _ => rfl, fun _ => id, rfl, le_rfl, rfl, rfl⟩

namespace Effect

variable {s t : State n} {initproc p : Fin n}

/-! ### Spawning -/

theorem findUnused_some {np : Fin n} (found : s.findUnused = some np) :
    (s.procs np).state = .UNUSED := by
  simpa using List.find?_some found

def started (s : State n) (p : Fin n) (trapframe sigTf : Frame) (table : PageTable) : Proc n :=
  { (Proc.fresh s.nextpid trapframe sigTf table : Proc n) with
    sz := (s.procs p).sz
    parent := some p
    state := .RUNNABLE }

theorem spawn_cases {copy : PageTable → Space → ℕ → Option (Space × Bool)}
    {finish : Proc n → Proc n} {record : State n → Fin n → State n} (shape : Shape s)
    (ran : s.spawn p copy finish record = some t)
    (undone : ∀ {kmem later : Kmem} {new old : PageTable} {space : Space} {tf sig : Frame}
      {freed : Proc n}, (∀ q, q < trapframePage → new.leaf q = none) → Armed new →
      copy old ⟨kmem, new⟩ (s.procs p).sz = some (space, false) →
      freeproc space.kmem { (Proc.fresh s.nextpid tf sig new : Proc n) with
        pagetable := some space.table } = some (later, freed) →
      Balanced s.kmem (fun _ => 0) kmem (Proc.fresh (n := n) s.nextpid tf sig new).kernelFrames →
      kmem.user = s.kmem.user →
      Balanced s.kmem (fun _ => 0) later (fun _ => 0) ∧
        ∀ f, later.user f = true → s.kmem.user f = true) :
    Kept s t ∨ ∃ np kmem tf sig old new space,
      s.procs np = .unused ∧ Armed new ∧ (∀ q, q < trapframePage → new.leaf q = none) ∧
      Balanced s.kmem (fun _ => 0) kmem (Proc.fresh (n := n) s.nextpid tf sig new).kernelFrames ∧
      kmem.user = s.kmem.user ∧ (s.procs p).pagetable = some old ∧
      copy old ⟨kmem, new⟩ (s.procs p).sz = some (space, true) ∧
      t = record { s.setProc space.kmem np (finish (started s p tf sig space.table)) with
        nextpid := s.nextpid + 1 } np := by
  rw [State.spawn] at ran
  split at ran
  · obtain rfl := Option.some.inj ran
    exact .inl (.refl _)
  · rename_i np found
    have free := shape.unused np (findUnused_some found)
    have same : ∀ proc, proc = .unused → Function.update s.procs np proc = s.procs := by
      rintro _ rfl
      rw [← free, Function.update_eq_self]
    rw [free] at ran
    split at ran
    · simp at ran
    · rename_i kmem child made
      obtain rfl := Option.some.inj ran
      obtain ⟨rfl, balanced, lent⟩ := allocproc_fail made
      exact .inl ⟨balanced, lent, same _ rfl, by simp, rfl, rfl⟩
    · rename_i kmem child made
      obtain ⟨tf, sig, new, rfl, armed, unmapped, balanced, user⟩ := allocproc_done made
      split at ran
      · rename_i old new' before entered
        obtain rfl : new = new' := Option.some.inj entered
        split at ran
        · simp at ran
        · rename_i space copied
          obtain ⟨⟨kmem', freed⟩, done, ends⟩ := Option.map_eq_some_iff.mp ran
          subst ends
          obtain ⟨back, lent⟩ := undone unmapped armed copied done balanced user
          exact .inl ⟨back, lent, same _ (freeproc_result done), by simp, rfl, rfl⟩
        · rename_i space copied
          exact .inr ⟨np, kmem, tf, sig, old, new, space, free, armed, unmapped, balanced, user,
            before, copied, (Option.some.inj ran).symm⟩
      · simp at ran

theorem undone_moves {kmem kmem' later : Kmem} {pid : Int} {tf sig : Frame} {new : PageTable}
    {space : Space} {freed : Proc n} (unmapped : ∀ q, q < trapframePage → new.leaf q = none)
    (moves : Space.Moves ⟨kmem', new⟩ space)
    (ran : freeproc space.kmem
      { (Proc.fresh pid tf sig new : Proc n) with pagetable := some space.table } =
        some (later, freed))
    (balanced : Balanced kmem (fun _ => 0) kmem'
      (Proc.fresh (n := n) pid tf sig new).kernelFrames)
    (user : kmem'.user = kmem.user) :
    Balanced kmem (fun _ => 0) later (fun _ => 0) ∧
      ∀ f, later.user f = true → kmem.user f = true := by
  obtain ⟨back, lent⟩ := freeproc_process ran rfl pages_zero
  refine ⟨balanced.trans (((moves.balanced.frame fun f => [tf].count f + [sig].count f).congr
    (fun f => ?_) fun f => ?_).trans back), fun f later => ?_⟩
  · rw [own_of_unmapped unmapped]
    exact Nat.add_comm _ _
  · simp only [Proc.own, Proc.kernelFrames, Proc.userFrames, Proc.fresh, Option.elim,
      Option.toList_some, PageTable.own]
    omega
  · obtain ⟨before, gone⟩ := lent f later
    rcases moves.lent f before with mapped | ⟨earlier, -⟩
    · exact absurd ⟨_, rfl, mapped⟩ gone
    · exact user ▸ earlier

theorem undone_grows {kmem kmem' later : Kmem} {pid : Int} {tf sig : Frame} {new : PageTable}
    {space : Space} {freed : Proc n} (grows : Space.Grows ⟨kmem', new⟩ space)
    (ran : freeproc space.kmem
      { (Proc.fresh pid tf sig new : Proc n) with pagetable := some space.table } =
        some (later, freed))
    (balanced : Balanced kmem (fun _ => 0) kmem'
      (Proc.fresh (n := n) pid tf sig new).kernelFrames)
    (user : kmem'.user = kmem.user) :
    Balanced kmem (fun _ => 0) later (fun _ => 0) ∧
      ∀ f, later.user f = true → kmem.user f = true := by
  obtain ⟨back, lent⟩ := freeproc_bare ran rfl rfl
  refine ⟨balanced.trans (((grows.balanced.frame fun f => [tf].count f + [sig].count f).congr
    (fun f => Nat.add_comm _ _) fun f => ?_).trans back), fun f later => ?_⟩
  · exact Nat.add_comm _ _
  · have before := (lent f later).1
    rwa [grows.user, user] at before

theorem kfork_effect (shape : Shape s) (ran : s.kfork p = some t) :
    Effect initproc p .fork s t := by
  have low := shape.low p
  rcases spawn_cases shape ran fun unmapped armed copied ran balanced user =>
      undone_moves unmapped
        (Space.uvmcopyFrom_cases copied armed (by omega)).1 ran balanced user with
    kept | ⟨np, kmem, tf, sig, old, new, space, free, armed, unmapped, balanced, user, before,
      copied, rfl⟩
  · exact .kept kept
  · obtain ⟨moves, high⟩ := Space.uvmcopyFrom_cases copied armed (by omega)
    have armed' : Armed space.table := by rwa [Armed, high _ le_rfl]
    refine @forked _ _ _ _ _ _ np (started s p tf sig space.table)
      ⟨free, rfl, rfl, rfl, rfl, ⟨_, rfl, armed'⟩, rfl, rfl⟩ rfl ?_ ?_ rfl rfl
    · refine balanced.trans ((moves.balanced.frame fun f => [tf].count f + [sig].count f).congr
        (fun f => ?_) fun f => ?_)
      · rw [own_of_unmapped unmapped]
        exact Nat.add_comm _ _
      · simp only [Proc.own, Proc.kernelFrames, Proc.userFrames, started, Proc.fresh,
          Option.elim, Option.toList_some, PageTable.own]
        omega
    · intro f lent
      rcases moves.lent f lent with mapped | ⟨earlier, -⟩
      · exact .inl ⟨_, rfl, mapped⟩
      · exact .inr (user ▸ earlier)

theorem kclone_effect (shape : Shape s) (running : (s.procs p).state = .RUNNABLE)
    (ran : s.kclone p = some t) : Effect initproc p .clone s t := by
  have low := shape.low p
  rcases spawn_cases shape ran fun unmapped armed copied ran balanced user =>
      undone_grows (Space.uvmshareFrom_cases copied).1 ran balanced user with
    kept | ⟨np, kmem, tf, sig, old, new, space, free, armed, unmapped, balanced, user, before,
      copied, rfl⟩
  · exact .kept kept
  · obtain ⟨grows, above, leaves⟩ := Space.uvmshareFrom_cases copied
    have leaves := leaves rfl
    have other : p ≠ np := by
      rintro rfl
      simp [free, Proc.unused] at running
    have armed' : Armed space.table := by
      rw [Armed, above _ (by omega)]
      exact armed
    refine @cloned _ _ _ _ _ _ np
      { started s p tf sig space.table with isThread := true, memParent := some p } old space.table
      ⟨free, rfl, rfl, rfl, rfl, ⟨_, rfl, armed'⟩, rfl, rfl⟩ rfl rfl before rfl
      ⟨fun q inside => ?_, fun q outside low => ?_⟩ ?_ (grows.user.trans user)
      (by simp [State.setProc, other]) rfl
    · rw [leaves]
      by_cases mapped : old.leaf q = none
      · rw [if_neg (by simp [mapped]), mapped, unmapped q (by omega)]
      · rw [if_pos ⟨by omega, mapped⟩]
    · rw [above q (by omega), unmapped q low]
    · exact balanced.trans ((grows.balanced.frame fun f => [tf].count f + [sig].count f).congr
        (fun f => Nat.add_comm _ _) fun f => Nat.add_comm _ _)

/-! ### Resizing -/

theorem growproc_effect {count : Int} (shape : Shape s) (running : (s.procs p).state = .RUNNABLE)
    (ran : s.growproc p count = some t) : Effect initproc p (.grow count) s t := by
  obtain ⟨table, here, armed⟩ := shape.armed p (by simp [running])
  have low := shape.low p
  simp only [State.growproc, here] at ran
  split at ran
  · rename_i positive
    split at ran
    · obtain rfl := Option.some.inj ran
      exact .kept (.refl _)
    · rename_i small
      split at ran
      · simp at ran
      · rename_i space grown
        obtain rfl := Option.some.inj ran
        obtain ⟨moves, kept, -, same⟩ := Space.uvmalloc_cases grown armed low
        have same := same rfl
        refine .moved ⟨here, moves, ?_, low, rfl, rfl, rfl, fun q pte _ mapped => ?_,
          .inl ⟨rfl, .inr ⟨rfl, same⟩⟩⟩
        · rwa [Armed, same]
        · rw [same]
          exact .inl mapped
      · rename_i space sz changed grown
        have nonzero : sz ≠ 0 := changed
        obtain rfl := Option.some.inj ran
        obtain ⟨moves, kept, bound, -⟩ := Space.uvmalloc_cases grown armed low
        refine .moved ⟨here, moves, ?_, bound, rfl, rfl, rfl, fun q pte _ mapped => .inl ?_,
          .inl ⟨rfl, .inl ?_⟩⟩
        · rwa [Armed, kept _ armed]
        · rw [kept q (by simp [mapped]), mapped]
        · simp only [State.remaps, here, positive, if_true, grown]
          simpa [nonzero] using small
  · split at ran
    · rename_i negative
      obtain rfl := Option.some.inj ran
      rw [Space.uvmdealloc]
      split
      · refine .moved ⟨here, .refl _, armed, low, rfl, rfl, rfl, fun _ _ _ mapped => .inl mapped,
          .inl ⟨rfl, .inr ⟨rfl, fun _ => rfl⟩⟩⟩
      · rename_i less
        have remaps : s.remaps p (.grow count) = true := by
          simp only [State.remaps, here, if_neg (show ¬ count > 0 by omega)]
          simpa [negative] using less
        have releases : s.releases p (.grow count) =
            some (p, pages (State.wrap64 ((s.procs p).sz + count))) := by
          rw [State.releases, if_pos ⟨negative, by omega⟩]
        have bound : pages (State.wrap64 ((s.procs p).sz + count)) ≤ trapframePage :=
          (Space.pages_mono (Nat.le_of_not_ge less)).trans low
        split
        · have moves : Space.Moves ⟨s.kmem, table⟩ (Space.uvmunmap true ⟨s.kmem, table⟩
              (pages (State.wrap64 ((s.procs p).sz + count))) (pages (s.procs p).sz -
                pages (State.wrap64 ((s.procs p).sz + count)))) :=
            Space.uvmunmap_moves fun q _ upper _ => by omega
          refine .moved ⟨here, moves, ?_, bound, rfl, rfl, rfl, fun q pte _ mapped => ?_,
            .inl ⟨rfl, .inl remaps⟩⟩
          · rwa [Armed, Space.uvmunmap_leaf, if_neg (by omega)]
          · by_cases kept : q < pages (State.wrap64 ((s.procs p).sz + count))
            · rw [Space.uvmunmap_leaf, if_neg (by omega)]
              exact .inl mapped
            · exact .inr ⟨_, releases, by omega⟩
        · exact .moved ⟨here, .refl _, armed, bound, rfl, rfl, rfl,
            fun _ _ _ mapped => .inl mapped, .inl ⟨rfl, .inl remaps⟩⟩
    · obtain rfl := Option.some.inj ran
      exact .kept (.refl _)

theorem sbrkLazy_effect {count : ℕ} (shape : Shape s) (running : (s.procs p).state = .RUNNABLE) :
    Effect initproc p (.sbrk count) s (s.sbrkLazy p count) := by
  obtain ⟨table, here, armed⟩ := shape.armed p (by simp [running])
  rw [State.sbrkLazy]
  split
  · exact .kept (.refl _)
  · rename_i small
    have low : pages ((s.procs p).sz + count) ≤ trapframePage :=
      Space.pages_mono (Nat.le_of_not_gt small)
    refine @moved _ _ _ _ _ _ table table _ ⟨here, .refl _, armed, low, ?_, rfl, rfl,
      fun _ _ _ mapped => .inl mapped, .inl ⟨rfl, ?_⟩⟩
    · simp only [State.setProc, ← here]
    · by_cases none : count = 0
      · exact .inr ⟨by omega, fun _ => rfl⟩
      · refine .inl ?_
        simp only [State.remaps, Bool.and_eq_true, decide_eq_true_eq]
        exact ⟨none, by omega⟩

theorem page_of_lt {sz va : ℕ} (inside : va < sz) : va / PGSIZE < pages sz := by
  unfold pages pgRoundUp PGSIZE
  omega

theorem vmfault_effect {va : ℕ} (shape : Shape s) (running : (s.procs p).state = .RUNNABLE)
    (ran : s.vmfault p va = some t) : Effect initproc p (.fault va) s t := by
  obtain ⟨table, here, armed⟩ := shape.armed p (by simp [running])
  have low := shape.low p
  simp only [State.vmfault, here] at ran
  obtain ⟨⟨space, done⟩, faulted, rfl⟩ := Option.map_eq_some_iff.mp ran
  have asked := faulted
  have idle : space = ⟨s.kmem, table⟩ →
      Effect initproc p (.fault va) s (s.setSpace p space (s.procs p).sz) := by
    rintro rfl
    exact .moved ⟨here, .refl _, armed, low, rfl, rfl, rfl, fun _ _ _ mapped => .inl mapped,
      .inl ⟨rfl, .inr ⟨rfl, fun _ => rfl⟩⟩⟩
  rw [Space.vmfault] at faulted
  split at faulted
  · exact idle (Prod.mk.inj (Option.some.inj faulted)).1.symm
  · rename_i inside
    split at faulted
    · exact idle (Prod.mk.inj (Option.some.inj faulted)).1.symm
    · have below := page_of_lt (Nat.lt_of_not_ge inside)
      obtain ⟨moves, ⟨-, same⟩ | ⟨rfl, inUser, unmapped, mem, leaves⟩⟩ :=
        Space.mapNew_cases faulted armed (by omega)
      · refine .moved ⟨here, moves, ?_, low, rfl, rfl, rfl, fun q pte _ mapped => .inl ?_,
          .inl ⟨rfl, .inr ⟨rfl, same⟩⟩⟩
        · rwa [Armed, same]
        · rw [same, mapped]
      · refine .moved ⟨here, moves, ?_, low, rfl, rfl, rfl, fun q pte _ mapped => .inl ?_,
          .inl ⟨rfl, .inl ?_⟩⟩
        · rwa [Armed, leaves, if_neg (by omega)]
        · rw [leaves, if_neg, mapped]
          rintro rfl
          simp [unmapped] at mapped
        · simp only [State.remaps, here, asked]
          rfl

theorem kexec_effect {image : Image} (shape : Shape s) (ran : s.kexec p image = some t) :
    Effect initproc p (.exec image) s t := by
  rw [State.kexec] at ran
  split at ran
  · rename_i old tf here entered
    split at ran
    · simp at ran
    · rename_i kmem loaded
      obtain rfl := Option.some.inj ran
      rcases loadImage_cases loaded with ⟨-, balanced, lent⟩ | ⟨_, _, absurd, -⟩
      · exact .kept ⟨balanced, lent, rfl, le_rfl, rfl, rfl⟩
      · simp at absurd
    · rename_i kmem table sz loaded
      obtain ⟨later, freed, rfl⟩ := Option.map_eq_some_iff.mp ran
      rcases loadImage_cases loaded with ⟨absurd, -⟩ | ⟨_, _, same, built, bound⟩
      · simp at absurd
      obtain ⟨rfl, rfl⟩ := Prod.mk.inj (Option.some.inj same)
      obtain ⟨balanced, lent⟩ := procFreepagetable_balanced freed (shape.low p)
      have releases : s.releases p (.exec image) = some (p, 0) := by
        simp [State.releases, State.commits, entered, loaded]
      refine .moved ⟨here, ⟨?_, fun f last => ?_⟩, built.armed, bound, rfl, rfl, rfl,
        fun q pte _ mapped => .inr ⟨0, releases, Nat.zero_le q⟩, .inr rfl⟩
      · exact ((built.balanced.frame old.own).congr (fun f => (Nat.zero_add _).symm)
          fun f => Nat.add_comm _ _).trans ((balanced.frame table.own).congr (fun _ => rfl)
            fun f => (Nat.zero_add _).symm)
      · obtain ⟨before, unmapped⟩ := lent f last
        exact (built.lent f before).imp id fun earlier => ⟨earlier, unmapped⟩
  · simp at ran

/-! ### Reaping -/

theorem reap_effect {tid : Option Int} {op : Op} (shape : Shape s)
    (named : op = .wait ∧ tid = none ∨ ∃ i, op = .join i ∧ tid = some i)
    (ran : s.reap p tid = some t) : Effect initproc p op s t := by
  rw [State.reap] at ran
  split at ran
  · obtain rfl := Option.some.inj ran
    exact .kept (.refl _)
  · rename_i pp found
    obtain ⟨⟨kmem, freed⟩, done, rfl⟩ := Option.map_eq_some_iff.mp ran
    obtain rfl := freeproc_result done
    have matched := List.find?_some found
    simp only [Bool.and_eq_true, decide_eq_true_eq] at matched
    have reaped : Reaped s p op pp (s.setProc kmem pp .unused) :=
      ⟨matched.2, matched.1.1, rfl, rfl, rfl, rfl, tid, found, named⟩
    cases kind : (s.procs pp).isThread with
    | false =>
        obtain ⟨balanced, lent⟩ := freeproc_process done kind (shape.low pp)
        exact .reapedProcess reaped kind balanced lent
    | true =>
        obtain ⟨balanced, lent⟩ := freeproc_thread done kind
        exact .reapedThread reaped kind balanced lent

theorem of_step {label : Fin n × Op} (shape : Shape s)
    (taken : step initproc s label = some t) :
    (s.procs label.1).state = .RUNNABLE ∧ Effect initproc label.1 label.2 s t := by
  obtain ⟨p, op⟩ := label
  rw [step] at taken
  split at taken
  · rename_i running
    refine ⟨running, ?_⟩
    cases op with
    | fork => exact kfork_effect shape taken
    | clone => exact kclone_effect shape running taken
    | grow count => exact growproc_effect shape running taken
    | sbrk count =>
        obtain rfl := Option.some.inj taken
        exact sbrkLazy_effect shape running
    | fault va => exact vmfault_effect shape running taken
    | exec image => exact kexec_effect shape taken
    | exit =>
        simp only [State.run, State.kexit] at taken
        split at taken
        · simp at taken
        · rename_i other
          exact .exited other (Option.some.inj taken).symm
    | wait => exact reap_effect shape (.inl ⟨rfl, rfl⟩) taken
    | join tid => exact reap_effect shape (.inr ⟨tid, rfl, rfl⟩) taken
  · simp at taken

end Effect

/-! ### The shape of a reachable state -/

theorem Shape.step {s t : State n} {initproc p : Fin n} {op : Op} (shape : Shape s)
    (running : (s.procs p).state = .RUNNABLE) (effect : Effect initproc p op s t) : Shape t := by
  cases effect with
  | kept kept =>
      constructor <;> intro q <;> rw [kept.procs]
      · exact shape.unused q
      · exact shape.armed q
      · exact shape.low q
  | exited _ same =>
      subst same
      constructor <;> intro q
      · simp only [State.exited]
        split
        · simp
        · rename_i other
          intro unused
          have empty := shape.unused q unused
          rw [empty]
          simp [Proc.unused]
      · simp only [State.exited]
        split
        · rename_i same
          intro _
          rw [same]
          exact shape.armed p (by simp [running])
        · exact shape.armed q
      · exact shape.low q
  | moved moved =>
      exact shape.replace moved.procs
        (.inr ⟨by simp [running], moved.low, _, rfl, moved.armed⟩)
  | @forked np child spawned =>
      exact shape.replace spawned.procs (.inr ⟨by simp [spawned.state],
        by rw [spawned.sz]; exact shape.low p, spawned.armed⟩)
  | @cloned np child old new spawned =>
      exact shape.replace spawned.procs (.inr ⟨by simp [spawned.state],
        by rw [spawned.sz]; exact shape.low p, spawned.armed⟩)
  | reapedProcess reaped => exact shape.replace reaped.procs (.inl rfl)
  | reapedThread reaped => exact shape.replace reaped.procs (.inl rfl)

theorem boot_some {initproc : Fin n} {frames : List Frame} {s : State n}
    (booted : boot initproc frames = some s) :
    ∃ tf sig table, Armed table ∧ (∀ q, q < trapframePage → table.leaf q = none) ∧
      s.procs = Function.update (fun _ => .unused) initproc
        { Proc.fresh 1 tf sig table with state := .RUNNABLE } ∧
      Balanced (Kmem.empty.kfreeAll frames) (fun _ => 0) s.kmem
        (Proc.fresh (n := n) 1 tf sig table).kernelFrames ∧
      s.kmem.user = (Kmem.empty.kfreeAll frames).user ∧ s.nextpid = 2 := by
  rw [boot] at booted
  split at booted
  · rename_i kmem proc made
    obtain rfl := Option.some.inj booted
    obtain ⟨tf, sig, table, rfl, armed, unmapped, balanced, user⟩ := allocproc_done made
    exact ⟨tf, sig, table, armed, unmapped, rfl, balanced, user, rfl⟩
  · simp at booted

theorem Shape.boot {initproc : Fin n} {frames : List Frame} {s : State n}
    (booted : Memory.boot initproc frames = some s) : Shape s := by
  obtain ⟨tf, sig, table, armed, -, procs, -⟩ := boot_some booted
  have empty : Shape { s with procs := fun _ => .unused } :=
    ⟨fun _ _ => rfl, fun _ used => absurd rfl used, fun _ => pages_zero⟩
  exact empty.replace procs (.inr ⟨by simp, pages_zero, table, rfl, armed⟩)

theorem reachable_shape {initproc : Fin n} {s : State n}
    (reachable : (system initproc).Reachable s) : Shape s := by
  refine reachable.invariant (fun s ⟨frames, _, booted⟩ => Shape.boot booted)
    fun before label after shape taken => ?_
  obtain ⟨running, effect⟩ := Effect.of_step shape taken
  exact shape.step running effect

end OsLab.Kernel.Memory
