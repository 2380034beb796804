import Mathlib.Algebra.BigOperators.Fin
import OsLab.Kernel.Getcwd

/-!
Where `iput` frees an inode. A process inside a transaction may always free one; `getcwd`,
which opens none, must not. What it may drop is decided by the references the processes
hold and by the links of the directories above its own.
-/

namespace OsLab.Kernel.Fs

open OsLab.Library

/-- Between `begin_op` and the matching `end_op` of the call. -/
def Pc.inOp : Pc → Bool
  | .user | .getcwd | .climb _ _ | .climbLocked _ _ | .lockParent _ _ _ | .parentLocked _ _ _
  | .returned _ | .beginOp _ _ => false
  | .tidy _ next => next.inOp
  | _ => true

def Tidy.ref : Tidy → List ℕ
  | .unlock _ => []
  | .put i => [i]

def Pc.refs (cwd : ℕ) : Pc → List ℕ
  | .user | .getcwd | .returned _ | .beginOp _ _ | .start _ _ | .endOp => [cwd]
  | .climb cur _ | .climbLocked cur _ => [cur, cwd]
  | .lockParent cur parent _ | .parentLocked cur parent _ => [cur, parent, cwd]
  | .namex _ ip _ | .element _ ip _ _ | .unlinkDrop ip | .mkdirExists ip | .chdir ip
  | .chdirLocked ip => [ip, cwd]
  | .unlink dp _ | .unlinkLocked dp _ | .mkdir dp _ | .mkdirLocked dp _ => [dp, cwd]
  | .unlinkTarget dp _ ip | .unlinkBoth dp _ ip | .mkdirNew dp _ ip | .mkdirFill dp _ ip =>
      [dp, ip, cwd]
  | .chdirEnd ip => [ip]
  | .tidy acts next => acts.flatMap Tidy.ref ++ next.refs cwd

def Pc.held : Pc → List ℕ
  | .climb cur _ | .climbLocked cur _ => [cur]
  | .lockParent cur parent _ | .parentLocked cur parent _ => [cur, parent]
  | .tidy acts next => acts.flatMap Tidy.ref ++ next.held
  | _ => []

theorem refs_eq_held (cwd : ℕ) (pc : Pc) (outside : pc.inOp = false) :
    pc.refs cwd = pc.held ++ [cwd] := by
  induction pc with
  | tidy acts next ih => simp [Pc.refs, Pc.held, ih outside]
  | _ => first | rfl | simp [Pc.inOp] at outside

@[simp] theorem resume_inOp (next : Pc) (acts : List Tidy) :
    (next.resume acts).inOp = next.inOp := by
  cases acts <;> rfl

@[simp] theorem resume_refs (cwd : ℕ) (next : Pc) (acts : List Tidy) :
    (next.resume acts).refs cwd = acts.flatMap Tidy.ref ++ next.refs cwd := by
  cases acts <;> rfl

@[simp] theorem resume_held (next : Pc) (acts : List Tidy) :
    (next.resume acts).held = acts.flatMap Tidy.ref ++ next.held := by
  cases acts <;> rfl

variable {n ninodes : ℕ}

/-- Every `iput` that frees an inode is made inside a transaction of its own call, and `log_write`
has not been called outside of all transactions. -/
structure InTransaction (state : State n) : Prop where
  frees : ∀ p i acts next, state.pc p = .tidy (.put i :: acts) next → (state.inode i).Frees →
    (state.pc p).inOp = true
  log : ∀ p, state.panic ≠ some (p, .logWrite)

def State.follows (state : State n) (label : Fin n × Action) : Option ℕ :=
  match state.pc label.1 with
  | .climbLocked cur _ => ((state.inode cur).dirlookup dotdot).map fun found => found.1.inum
  | _ => none

/-- The inodes whose link count a step sets to zero: by a removal, by `ialloc`, or by `create`
giving up. -/
def State.zeroes (ninodes : ℕ) (state : State n) (label : Fin n × Action) : List ℕ :=
  match state.pc label.1, label.2 with
  | .unlinkBoth dp _ ip, .next _ =>
      let target := state.inode ip
      if 1 ≤ target.nlink ∧ target.type = .dir ∧ target.isdirempty = true ∧
        (state.inode dp).nlink ≤ 1 then [dp] else []
  | .unlinkDrop ip, .next _ => if (state.inode ip).nlink ≤ 1 then [ip] else []
  | .mkdirLocked dp name, .next _ =>
      if (state.inode dp).dirlookup name = none then (ialloc ninodes state.inode).toList else []
  | .mkdirFill _ _ ip, .next space => if space < 3 then [ip] else []
  | _, _ => []

/-- A walk of `getcwd` follows `..` only to a directory that is still linked, and no directory
it holds loses its last link; its own working directory may. -/
structure Anchored (ninodes : ℕ) (state : State n) (label : Fin n × Action) : Prop where
  follows : ∀ i ∈ state.follows label, i = state.cwd label.1 ∨ 0 < (state.inode i).nlink
  zeroes : ∀ i ∈ state.zeroes ninodes label, ∀ q, (state.pc q).inOp = false →
    i ∈ (state.pc q).held → i = state.cwd q

/-! ### The invariant -/

structure Inv (state : State n) : Prop where
  refs : Covers (fun i => (state.inode i).ref) fun p => (state.pc p).refs (state.cwd p)
  ops : Covers (fun _ : Unit => state.outstanding) fun p =>
    if (state.pc p).inOp then [()] else []
  linked : ∀ p, (state.pc p).inOp = false → ∀ i ∈ (state.pc p).held,
    i = state.cwd p ∨ 0 < (state.inode i).nlink
  log : ∀ p, state.panic ≠ some (p, .logWrite)

variable {state after : State n} {p : Fin n} {next : Pc}

theorem Quiet.inv (quiet : state.Quiet) : Inv state where
  refs := by simpa [quiet.user, Pc.refs] using quiet.counted
  ops _ := by simp [quiet.user, Pc.inOp]
  linked p _ i member := by simp [quiet.user, Pc.held] at member
  log p := by simp [quiet.panic]

namespace Inv

theorem outstanding (inv : Inv state) (inside : (state.pc p).inOp = true) :
    1 ≤ state.outstanding := by
  have mine : () ∈ if (state.pc p).inOp then [()] else [] := by simp [inside]
  exact inv.ops.pos p mine

theorem inTransaction (inv : Inv state) : InTransaction state where
  frees p i acts later here frees := by
    by_contra outside
    rw [Bool.not_eq_true] at outside
    have member : i ∈ (state.pc p).held := by simp [here, Pc.held, Tidy.ref]
    rcases inv.linked p outside i member with own | linked
    · -- the walk's reference comes on top of the one of `p->cwd`
      have twice : 2 ≤ ((state.pc p).refs (state.cwd p)).count i := by
        rw [refs_eq_held _ _ outside, List.count_append, ← own]
        have once := List.count_pos_iff.mpr member
        simp only [List.count_singleton_self]
        omega
      have covered := inv.refs.held p i
      have last := frees.1
      omega
    · have unlinked := frees.2.2
      omega
  log := inv.log

theorem setInode_ref {state : State n} {i : ℕ} {ip : Inode n}
    (same : ip.ref = (state.inode i).ref) (j : ℕ) :
    ((state.setInode i ip).inode j).ref = (state.inode j).ref := by
  by_cases hit : j = i
  · subst j
    simp [State.setInode, same]
  · simp [State.setInode, hit]

theorem move (inv : Inv state) (p : Fin n) (next : Pc)
    (pc : after.pc = Function.update state.pc p next)
    (cwd : ∀ q, q ≠ p → after.cwd q = state.cwd q) (panic : after.panic = state.panic)
    (refs : ∀ i, (state.inode i).ref + (next.refs (after.cwd p)).count i ≤
      (after.inode i).ref + ((state.pc p).refs (state.cwd p)).count i)
    (ops : state.outstanding + (if next.inOp then 1 else 0) ≤
      after.outstanding + if (state.pc p).inOp then 1 else 0)
    (mine : next.inOp = false → ∀ i ∈ next.held, i = after.cwd p ∨ 0 < (after.inode i).nlink)
    (others : ∀ q, (state.pc q).inOp = false → ∀ i ∈ (state.pc q).held,
      0 < (state.inode i).nlink → i = state.cwd q ∨ 0 < (after.inode i).nlink) : Inv after where
  refs := by
    have moved : (fun q => (after.pc q).refs (after.cwd q)) =
        Function.update (fun q => (state.pc q).refs (state.cwd q)) p (next.refs (after.cwd p)) := by
      funext q
      rw [pc]
      by_cases self : q = p
      · subst q
        simp
      · simp [self, cwd q self]
    rw [moved]
    exact inv.refs.move refs
  ops := by
    have moved : (fun q => if (after.pc q).inOp then [()] else []) =
        Function.update (fun q => if (state.pc q).inOp then [()] else []) p
          (if next.inOp then [()] else []) := by
      funext q
      rw [pc]
      by_cases self : q = p
      · subst q
        simp
      · simp [self]
    rw [moved]
    refine inv.ops.move fun _ => ?_
    cases inside : next.inOp <;> cases was : (state.pc p).inOp <;>
      simp [inside, was] at ops ⊢ <;> omega
  linked q outside i member := by
    rw [pc] at outside member
    by_cases self : q = p
    · subst q
      rw [Function.update_self] at outside member
      exact mine outside i member
    · rw [Function.update_of_ne self] at outside member
      rw [cwd q self]
      rcases inv.linked q outside i member with own | linked
      · exact .inl own
      · exact others q outside i member linked
  log q := by
    rw [panic]
    exact inv.log q

theorem fail (inv : Inv state) (p : Fin n) {panic : Panic} (other : panic ≠ .logWrite) :
    Inv (state.fail p panic) := by
  refine ⟨inv.refs, inv.ops, inv.linked, fun q hit => other ?_⟩
  simp only [State.fail, Option.some.injEq, Prod.mk.injEq] at hit
  exact hit.2

theorem logged (inv : Inv state) (inside : (state.pc p).inOp = true) (written : Inv after) :
    Inv (state.logged p after) := by
  have enough := inv.outstanding inside
  rw [State.logged, if_neg (by omega)]
  exact written

theorem goto (inv : Inv state)
    (refs : ∀ i, (next.refs (state.cwd p)).count i ≤ ((state.pc p).refs (state.cwd p)).count i)
    (inOp : next.inOp = (state.pc p).inOp)
    (mine : next.inOp = false → ∀ i ∈ next.held, i ∈ (state.pc p).held) :
    Inv (state.goto p next) := by
  refine inv.move p next rfl (fun _ _ => rfl) rfl (fun i => ?_) (by rw [inOp]; rfl) ?_ ?_
  · exact Nat.add_le_add_left (refs i) _
  · intro outside i member
    exact inv.linked p (inOp ▸ outside) i (mine outside i member)
  · exact fun _ _ _ _ linked => .inr linked

theorem change (inv : Inv state) {i : ℕ} {ip : Inode n} (links : ip.nlink = (state.inode i).nlink)
    (refs : ∀ j, (if j = i then (state.inode i).ref else 0) + (next.refs (state.cwd p)).count j ≤
      (if j = i then ip.ref else 0) + ((state.pc p).refs (state.cwd p)).count j)
    (inOp : next.inOp = (state.pc p).inOp)
    (mine : next.inOp = false → ∀ j ∈ next.held,
      j ∈ (state.pc p).held ∨ j = state.cwd p ∨ 0 < (state.inode j).nlink) :
    Inv ((state.setInode i ip).goto p next) := by
  have same : ∀ j, (((state.setInode i ip).goto p next).inode j).nlink =
      (state.inode j).nlink := by
    intro j
    by_cases hit : j = i
    · subst j
      simpa [State.setInode, State.goto] using links
    · simp [State.setInode, State.goto, hit]
  refine inv.move p next rfl (fun _ _ => rfl) rfl (fun j => ?_) (by rw [inOp]; rfl) ?_ ?_
  · have change := refs j
    by_cases hit : j = i
    · subst j
      simpa [State.setInode, State.goto] using change
    · simpa [State.setInode, State.goto, hit] using change
  · intro outside j member
    rw [same]
    rcases mine outside j member with old | fresh
    · exact inv.linked p (inOp ▸ outside) j old
    · exact fresh
  · intro q _ j _ linked
    rw [same]
    exact .inr linked

theorem relock (inv : Inv state) {i : ℕ} {ip : Inode n} (links : ip.nlink = (state.inode i).nlink)
    (count : ip.ref = (state.inode i).ref)
    (refs : ∀ j, (next.refs (state.cwd p)).count j ≤ ((state.pc p).refs (state.cwd p)).count j)
    (inOp : next.inOp = (state.pc p).inOp)
    (mine : next.inOp = false → ∀ j ∈ next.held, j ∈ (state.pc p).held) :
    Inv ((state.setInode i ip).goto p next) := by
  apply inv.change links
  · intro j
    rw [count]
    exact Nat.add_le_add_left (refs j) _
  · exact inOp
  · exact fun outside j member => .inl (mine outside j member)

theorem ilock (inv : Inv state) {i : ℕ} (locked : state.ilock p i next = some after)
    (refs : next.refs (state.cwd p) = (state.pc p).refs (state.cwd p))
    (inOp : next.inOp = (state.pc p).inOp)
    (held : (state.pc p).inOp = false → next.held = (state.pc p).held) : Inv after := by
  simp only [State.ilock] at locked
  split at locked
  · obtain rfl := Option.some.inj locked
    exact inv.fail p (by simp)
  · split at locked
    · simp at locked
    · split at locked
      · obtain rfl := Option.some.inj locked
        exact inv.fail p (by simp)
      · obtain rfl := Option.some.inj locked
        refine inv.relock rfl rfl (fun j => by rw [refs]) inOp fun outside j member => ?_
        rw [← held (inOp ▸ outside)]
        exact member

theorem tidy (inv : Inv state) {act : Tidy} {acts : List Tidy}
    (here : state.pc p = .tidy (act :: acts) next) :
    Inv (state.tidy p (next.resume acts) act) := by
  have inOp : (next.resume acts).inOp = (state.pc p).inOp := by simp [here, Pc.inOp]
  cases act with
  | unlock i =>
      simp only [State.tidy]
      split
      · exact inv.fail p (by simp)
      · exact inv.relock rfl rfl (fun j => by simp [here, Pc.refs, Tidy.ref]) inOp
          (fun _ j member => by simpa [here, Pc.held, Tidy.ref] using member)
  | put i =>
      have dropped : Inv ((state.setInode i (state.inode i).put).goto p (next.resume acts)) := by
        have mine : 0 < (state.inode i).ref :=
          inv.refs.pos p (by simp [here, Pc.refs, Tidy.ref])
        apply inv.change (by simp) _ inOp
        · intro _ j member
          have grown : (state.pc p).held = i :: (next.resume acts).held := by
            simp [here, Pc.held, Tidy.ref]
          rw [grown]
          exact .inl (List.mem_cons_of_mem i member)
        · intro j
          simp only [resume_refs, here, Pc.refs, List.flatMap_cons, Tidy.ref, List.count_append,
            List.count_singleton, Inode.put_ref]
          by_cases hit : j = i
          · subst j
            simp
            omega
          · simp [hit, Ne.symm hit]
      simp only [State.tidy]
      split
      · rename_i frees
        exact inv.logged (inv.inTransaction.frees p i acts next here frees) dropped
      · exact dropped

theorem getcwd {pc : Pc} (inv : Inv state) (here : state.pc p = pc)
    (follows : ∀ i ∈ state.follows (p, .next 0), i = state.cwd p ∨ 0 < (state.inode i).nlink)
    (taken : getcwd state p pc = some after) : Inv after := by
  cases pc <;> simp only [Fs.getcwd, reduceCtorEq] at taken
  case climb cur names =>
    exact inv.ilock taken (by simp [here, Pc.refs]) (by simp [here, Pc.inOp])
      (by simp [here, Pc.inOp, Pc.held])
  case lockParent cur parent names =>
    exact inv.ilock taken (by simp [here, Pc.refs]) (by simp [here, Pc.inOp])
      (by simp [here, Pc.inOp, Pc.held])
  case getcwd =>
    obtain rfl := Option.some.inj taken
    apply inv.change (Inode.dup_nlink _)
    · intro j
      simp only [Inode.dup_ref, here, Pc.refs, List.count_cons, List.count_nil]
      by_cases hit : j = state.cwd p
      · simp [hit]
      · simp [hit, Ne.symm hit]
    · simp [here, Pc.inOp]
    · intro _ j member
      simp only [Pc.held, List.mem_singleton] at member
      exact .inr (.inl member)
  case climbLocked cur names =>
    split at taken
    · obtain rfl := Option.some.inj taken
      exact inv.fail p (by simp)
    · split at taken
      · obtain rfl := Option.some.inj taken
        apply inv.goto
        · simp [here, Pc.refs, Tidy.ref]
        · simp [here, Pc.inOp]
        · simp [here, Pc.held, Tidy.ref]
      · rename_i found off lookup
        obtain rfl := Option.some.inj taken
        have linked := follows found.inum (by simp [State.follows, here, lookup])
        apply inv.change (by simp)
        · intro j
          simp only [Inode.get_ref, here, Pc.refs, Tidy.ref, List.flatMap_cons, List.flatMap_nil,
            List.append_nil, List.nil_append, List.count_cons, List.count_nil]
          by_cases hit : j = found.inum
          · subst j
            simp
            omega
          · simp [hit, Ne.symm hit]
        · simp [here, Pc.inOp]
        · intro _ j member
          simp only [Pc.held, Tidy.ref, List.flatMap_cons, List.flatMap_nil, List.append_nil,
            List.nil_append, List.mem_cons, List.not_mem_nil, or_false] at member
          rcases member with same | same
          · subst j
            exact .inl (by simp [here, Pc.held])
          · subst j
            exact .inr linked
  case parentLocked cur parent names =>
    split at taken
    · rename_i root
      obtain rfl := Option.some.inj taken
      apply inv.goto
      · intro i
        simp [here, Pc.refs, Tidy.ref, List.count_cons]
        omega
      · simp [here, Pc.inOp]
      · simp [here, Pc.held, Tidy.ref]
    · split at taken
      · obtain rfl := Option.some.inj taken
        apply inv.goto
        · intro i
          simp [here, Pc.refs, Tidy.ref, List.count_cons]
          omega
        · simp [here, Pc.inOp]
        · intro _ i member
          simp [here, Pc.held, Tidy.ref] at member ⊢
          omega
      · obtain rfl := Option.some.inj taken
        apply inv.goto
        · simp [here, Pc.refs, Tidy.ref]
        · simp [here, Pc.inOp]
        · simp [here, Pc.held, Tidy.ref]
  case returned path =>
    obtain rfl := Option.some.inj taken
    apply inv.goto
    · simp [here, Pc.refs]
    · simp [here, Pc.inOp]
    · simp [Pc.held]

theorem stay (inv : Inv state) (inside : (state.pc p).inOp = true) (stays : next.inOp = true)
    (refs : ∀ i, (next.refs (state.cwd p)).count i ≤
      ((state.pc p).refs (state.cwd p)).count i) : Inv (state.goto p next) :=
  inv.goto refs (stays.trans inside.symm) fun outside => by simp [stays] at outside

theorem take (inv : Inv state) (inside : (state.pc p).inOp = true) (stays : next.inOp = true)
    {i : ℕ} {ip : Inode n} (links : ip.nlink = (state.inode i).nlink)
    (count : ip.ref = (state.inode i).ref + 1)
    (refs : ∀ j, (next.refs (state.cwd p)).count j ≤
      (i :: (state.pc p).refs (state.cwd p)).count j) :
    Inv ((state.setInode i ip).goto p next) := by
  apply inv.change links
  · intro j
    have more := refs j
    rw [List.count_cons] at more
    by_cases hit : j = i
    · subst j
      simp only [BEq.rfl, if_true, count] at more ⊢
      omega
    · simp only [hit, beq_iff_eq, Ne.symm hit, if_false] at more ⊢
      omega
  · exact stays.trans inside.symm
  · exact fun outside => by simp [stays] at outside

theorem namex {pc : Pc} (inv : Inv state) (here : state.pc p = pc)
    (taken : namex state p pc = some after) : Inv after := by
  cases pc <;> simp only [Fs.namex, reduceCtorEq] at taken
  case beginOp op path =>
    obtain rfl := Option.some.inj taken
    apply inv.move p (.start op path)
    · rfl
    · exact fun _ _ => rfl
    · rfl
    · exact fun i => by simp [State.goto, here, Pc.refs]
    · simp [State.goto, here, Pc.inOp]
    · simp [Pc.inOp]
    · exact fun _ _ _ _ linked => .inr linked
  case start op path =>
    have inside : (state.pc p).inOp = true := by simp [here, Pc.inOp]
    split at taken
    · obtain rfl := Option.some.inj taken
      exact inv.take inside rfl rfl rfl fun j => by simp [here, Pc.refs]
    · obtain rfl := Option.some.inj taken
      exact inv.take inside rfl rfl rfl fun j => by simp [here, Pc.refs]
  case namex op ip elements =>
    have inside : (state.pc p).inOp = true := by simp [here, Pc.inOp]
    cases elements with
    | nil =>
        dsimp only at taken
        split at taken
        · obtain rfl := Option.some.inj taken
          exact inv.stay inside rfl fun i => by simp [here, Pc.refs, Tidy.ref]
        · obtain rfl := Option.some.inj taken
          exact inv.stay inside (by cases op <;> rfl) fun i => by
            cases op <;> simp [here, Op.found, Pc.refs]
    | cons name rest =>
        dsimp only at taken
        exact inv.ilock taken (by simp [here, Pc.refs]) (by simp [here, Pc.inOp])
          (by simp [here, Pc.inOp, Pc.held])
  case element op ip name rest =>
    have inside : (state.pc p).inOp = true := by simp [here, Pc.inOp]
    split at taken
    · obtain rfl := Option.some.inj taken
      exact inv.stay inside rfl fun i => by simp [here, Pc.refs, Tidy.ref]
    · split at taken
      · obtain rfl := Option.some.inj taken
        refine inv.stay inside (by cases op <;> rfl) fun i => ?_
        cases op <;> simp [here, Op.found, Pc.refs, Tidy.ref]
      · split at taken
        · obtain rfl := Option.some.inj taken
          exact inv.stay inside rfl fun i => by simp [here, Pc.refs, Tidy.ref]
        · rename_i found off _
          obtain rfl := Option.some.inj taken
          refine inv.take inside rfl (Inode.get_nlink _) (Inode.get_ref _) fun j => ?_
          simp [here, Pc.refs, Tidy.ref, List.count_cons]
          omega
  case endOp =>
    obtain rfl := Option.some.inj taken
    have inside : (state.pc p).inOp = true := by simp [here, Pc.inOp]
    have enough := inv.outstanding inside
    apply inv.move p .user
    · rfl
    · exact fun _ _ => rfl
    · rfl
    · exact fun i => by simp [State.goto, here, Pc.refs]
    · simp [State.goto, here, Pc.inOp]
      omega
    · simp [Pc.held]
    · exact fun _ _ _ _ linked => .inr linked

theorem relink (inv : Inv state) (inside : (state.pc p).inOp = true) (stays : next.inOp = true)
    {i : ℕ} {ip : Inode n}
    (refs : ∀ j, (if j = i then (state.inode i).ref else 0) + (next.refs (state.cwd p)).count j ≤
      (if j = i then ip.ref else 0) + ((state.pc p).refs (state.cwd p)).count j)
    (others : ∀ q, (state.pc q).inOp = false → i ∈ (state.pc q).held →
      i = state.cwd q ∨ 0 < ip.nlink) : Inv ((state.setInode i ip).goto p next) := by
  apply inv.move p next
  · rfl
  · exact fun _ _ => rfl
  · rfl
  · intro j
    have change := refs j
    by_cases hit : j = i
    · subst j
      simpa [State.setInode, State.goto] using change
    · simpa [State.setInode, State.goto, hit] using change
  · simp [State.setInode, State.goto, inside, stays]
  · exact fun outside => by simp [stays] at outside
  · intro q outside j member linked
    by_cases hit : j = i
    · subst j
      simpa [State.setInode, State.goto] using others q outside member
    · exact .inr (by simpa [State.setInode, State.goto, hit] using linked)

theorem sysUnlink {pc : Pc} {space : ℕ} (inv : Inv state) (here : state.pc p = pc)
    (zeroes : ∀ i ∈ state.zeroes ninodes (p, .next space), ∀ q, (state.pc q).inOp = false →
      i ∈ (state.pc q).held → i = state.cwd q)
    (taken : sysUnlink state p pc = some after) : Inv after := by
  cases pc <;> simp only [Fs.sysUnlink, reduceCtorEq] at taken
  all_goals have inside : (state.pc p).inOp = true := by simp [here, Pc.inOp]
  case unlink dp name =>
    exact inv.ilock taken (by simp [here, Pc.refs]) (by simp [here, Pc.inOp])
      (by simp [here, Pc.inOp, Pc.held])
  case unlinkLocked dp name =>
    split at taken
    · obtain rfl := Option.some.inj taken
      exact inv.stay inside rfl fun i => by simp [here, Pc.refs, Tidy.ref]
    · split at taken
      · obtain rfl := Option.some.inj taken
        exact inv.fail p (by simp)
      · split at taken
        · obtain rfl := Option.some.inj taken
          exact inv.stay inside rfl fun i => by simp [here, Pc.refs, Tidy.ref]
        · obtain rfl := Option.some.inj taken
          refine inv.take inside rfl (Inode.get_nlink _) (Inode.get_ref _) fun j => ?_
          simp [here, Pc.refs, List.count_cons]
          omega
  case unlinkTarget dp off ip =>
    exact inv.ilock taken (by simp [here, Pc.refs]) (by simp [here, Pc.inOp])
      (by simp [here, Pc.inOp, Pc.held])
  case unlinkBoth dp off ip =>
    split at taken
    · obtain rfl := Option.some.inj taken
      exact inv.fail p (by simp)
    · rename_i positive
      split at taken
      · obtain rfl := Option.some.inj taken
        refine inv.stay inside rfl fun i => ?_
        simp [here, Pc.refs, Tidy.ref, List.count_cons]
        omega
      · rename_i removable
        obtain rfl := Option.some.inj taken
        refine inv.logged inside (inv.relink inside rfl (fun j => ?_) fun q outside member => ?_)
        · simp only [here, Pc.refs, Tidy.ref, List.flatMap_cons, List.flatMap_nil, List.append_nil,
            List.nil_append]
          exact Nat.le_refl _
        · by_cases last : (state.inode ip).type = .dir ∧ (state.inode dp).nlink ≤ 1
          · refine .inl (zeroes dp ?_ q outside member)
            have empty : (state.inode ip).isdirempty = true := by
              by_contra full
              exact removable ⟨last.1, by simpa using full⟩
            simp only [State.zeroes, here]
            rw [if_pos ⟨by omega, last.1, empty, last.2⟩]
            exact List.mem_singleton_self dp
          · rcases inv.linked q outside dp member with own | linked
            · exact .inl own
            · refine .inr ?_
              dsimp only
              split
              · rename_i dir
                have more : ¬ (state.inode dp).nlink ≤ 1 := fun few => last ⟨dir, few⟩
                omega
              · exact linked
  case unlinkDrop ip =>
    obtain rfl := Option.some.inj taken
    refine inv.logged inside (inv.relink inside rfl (fun j => ?_) fun q outside member => ?_)
    · simp only [here, Pc.refs, Tidy.ref, List.flatMap_cons, List.flatMap_nil, List.append_nil,
        List.nil_append]
      exact Nat.le_refl _
    · by_cases last : (state.inode ip).nlink ≤ 1
      · refine .inl (zeroes ip ?_ q outside member)
        simp only [State.zeroes, here]
        rw [if_pos last]
        exact List.mem_singleton_self ip
      · refine .inr ?_
        dsimp only
        omega

theorem sysMkdir {pc : Pc} {space : ℕ} (inv : Inv state) (here : state.pc p = pc)
    (zeroes : ∀ i ∈ state.zeroes ninodes (p, .next space), ∀ q, (state.pc q).inOp = false →
      i ∈ (state.pc q).held → i = state.cwd q)
    (taken : sysMkdir ninodes state p space pc = some after) : Inv after := by
  cases pc <;> simp only [Fs.sysMkdir, reduceCtorEq] at taken
  all_goals have inside : (state.pc p).inOp = true := by simp [here, Pc.inOp]
  case mkdir dp name =>
    exact inv.ilock taken (by simp [here, Pc.refs]) (by simp [here, Pc.inOp])
      (by simp [here, Pc.inOp, Pc.held])
  case mkdirLocked dp name =>
    split at taken
    · obtain rfl := Option.some.inj taken
      exact inv.fail p (by simp)
    · split at taken
      · obtain rfl := Option.some.inj taken
        refine inv.take inside rfl (Inode.get_nlink _) (Inode.get_ref _) fun j => ?_
        simp [here, Pc.refs, Tidy.ref, List.count_cons]
        omega
      · rename_i absent
        split at taken
        · obtain rfl := Option.some.inj taken
          exact inv.stay inside rfl fun i => by simp [here, Pc.refs, Tidy.ref]
        · rename_i ip allocated
          obtain rfl := Option.some.inj taken
          refine inv.logged inside (inv.relink inside rfl (fun j => ?_) fun q outside member => ?_)
          · simp only [Inode.get_ref, here, Pc.refs, List.count_cons, List.count_nil]
            by_cases hit : j = ip
            · simp [hit]
              omega
            · simp [hit, Ne.symm hit]
          · refine .inl (zeroes ip ?_ q outside member)
            simp [State.zeroes, here, absent, allocated]
  case mkdirExists ip =>
    exact inv.ilock taken (by simp [here, Pc.refs, Tidy.ref]) (by simp [here, Pc.inOp])
      (by simp [here, Pc.inOp])
  case mkdirNew dp name ip =>
    exact inv.ilock taken (by simp [here, Pc.refs]) (by simp [here, Pc.inOp])
      (by simp [here, Pc.inOp, Pc.held])
  case mkdirFill dp name ip =>
    split at taken
    · obtain rfl := Option.some.inj taken
      refine inv.logged inside ?_
      apply inv.move p (.tidy [.unlock dp, .put dp, .unlock ip, .put ip] .endOp)
      · rfl
      · exact fun _ _ => rfl
      · rfl
      · intro j
        apply Nat.add_le_add
        · simp only [State.goto]
          rw [setInode_ref, setInode_ref]
          · exact Inode.dots_ref _ _ _ _
          · rfl
        · simp [here, State.goto, State.setInode, Pc.refs, Tidy.ref, List.count_cons]
      · simp [State.setInode, State.goto, here, Pc.inOp]
      · simp [Pc.inOp]
      · intro q _ j _ linked
        refine .inr ?_
        by_cases parent : j = dp
        · simp [State.goto, State.setInode, parent]
        · by_cases fresh : j = ip
          · subst j
            simp [State.goto, State.setInode, parent]
          · simpa [State.goto, State.setInode, parent, fresh] using linked
    · obtain rfl := Option.some.inj taken
      refine inv.logged inside (inv.relink inside rfl (fun j => ?_) fun q outside member => ?_)
      · simp [here, Pc.refs, Tidy.ref, List.count_cons]
        omega
      · refine .inl (zeroes ip ?_ q outside member)
        simp only [State.zeroes, here]
        rw [if_pos (by omega)]
        exact List.mem_singleton_self ip

theorem sysChdir {pc : Pc} (inv : Inv state) (here : state.pc p = pc)
    (taken : sysChdir state p pc = some after) : Inv after := by
  cases pc <;> simp only [Fs.sysChdir, reduceCtorEq] at taken
  all_goals have inside : (state.pc p).inOp = true := by simp [here, Pc.inOp]
  case chdir ip =>
    exact inv.ilock taken (by simp [here, Pc.refs]) (by simp [here, Pc.inOp])
      (by simp [here, Pc.inOp, Pc.held])
  case chdirLocked ip =>
    split at taken
    · obtain rfl := Option.some.inj taken
      exact inv.stay inside rfl fun i => by simp [here, Pc.refs, Tidy.ref]
    · obtain rfl := Option.some.inj taken
      refine inv.stay inside rfl fun i => ?_
      simp [here, Pc.refs, Tidy.ref, List.count_cons]
      omega
  case chdirEnd ip =>
    obtain rfl := Option.some.inj taken
    have enough := inv.outstanding inside
    apply inv.move p .user
    · rfl
    · exact fun q other => by simp [State.goto, other]
    · rfl
    · exact fun i => by simp [State.goto, here, Pc.refs]
    · simp [State.goto, here, Pc.inOp]
      omega
    · simp [Pc.held]
    · exact fun _ _ _ _ linked => .inr linked

theorem advance {pc : Pc} {space : ℕ} (inv : Inv state) (here : state.pc p = pc)
    (anchored : Anchored ninodes state (p, .next space))
    (taken : advance ninodes state p space pc = some after) : Inv after := by
  have calls : Fs.getcwd state p pc = some after ∨ Fs.namex state p pc = some after ∨
      Fs.sysUnlink state p pc = some after ∨ Fs.sysMkdir ninodes state p space pc = some after ∨
      Fs.sysChdir state p pc = some after ∨ ∃ act acts next, pc = .tidy (act :: acts) next ∧
        state.tidy p (next.resume acts) act = after := by
    rw [Fs.advance.eq_def] at taken
    split at taken
    · rename_i act acts next
      exact .inr (.inr (.inr (.inr (.inr ⟨act, acts, next, rfl, Option.some.inj taken⟩))))
    · simp only [Option.orElse_eq_orElse, Option.orElse_eq_or, Option.or_eq_some_iff] at taken
      tauto
  rcases calls with walk | path | unlink | mkdir | chdir | ⟨act, acts, next, row, rfl⟩
  · exact inv.getcwd here anchored.follows walk
  · exact inv.namex here path
  · exact inv.sysUnlink here anchored.zeroes unlink
  · exact inv.sysMkdir here anchored.zeroes mkdir
  · exact inv.sysChdir here chdir
  · exact inv.tidy (here.trans row)

theorem step {label : Fin n × Action} (inv : Inv state) (anchored : Anchored ninodes state label)
    (taken : step ninodes state label = some after) : Inv after := by
  obtain ⟨p, action⟩ := label
  simp only [Fs.step] at taken
  split at taken
  · simp at taken
  · cases here : state.pc p <;> cases action <;> simp only [here, reduceCtorEq] at taken
    case user.getcwd =>
      obtain rfl := Option.some.inj taken
      exact inv.goto (fun i => by simp [here, Pc.refs]) (by simp [here, Pc.inOp])
        (by simp [Pc.held])
    case user.call =>
      obtain rfl := Option.some.inj taken
      exact inv.goto (fun i => by simp [here, Pc.refs]) (by simp [here, Pc.inOp])
        (by simp [Pc.held])
    all_goals exact inv.advance here anchored taken

end Inv

theorem inv_of_anchored
    (reachable : ((system n ninodes).restrict (Anchored ninodes)).Reachable state) : Inv state := by
  induction reachable with
  | start quiet => exact Quiet.inv quiet
  | step _ taken ih => exact ih.step taken.1 taken.2

/-- `getcwd` frees no inode in a run in which the directories its walks hold stay linked. -/
theorem iput_in_transaction
    (reachable : ((system n ninodes).restrict (Anchored ninodes)).Reachable state) :
    InTransaction state :=
  (inv_of_anchored reachable).inTransaction

instance (ninodes : ℕ) (state : State n) (label : Fin n × Action) :
    Decidable (Anchored ninodes state label) :=
  decidable_of_iff
    ((∀ i ∈ state.follows label, i = state.cwd label.1 ∨ 0 < (state.inode i).nlink) ∧
      ∀ i ∈ state.zeroes ninodes label, ∀ q, (state.pc q).inOp = false →
        i ∈ (state.pc q).held → i = state.cwd q)
    ⟨fun both => ⟨both.1, both.2⟩, fun anchored => ⟨anchored.follows, anchored.zeroes⟩⟩

/-- The root, `/a` and `/a/b`; the first process works in `/a/b`, the second in the root. -/
def nested : State 2 where
  inode i :=
    match i with
    | 1 => ⟨.dir, 2, [⟨1, dot⟩, ⟨1, dotdot⟩, ⟨2, ['a']⟩], 1, true, none⟩
    | 2 => ⟨.dir, 2, [⟨2, dot⟩, ⟨1, dotdot⟩, ⟨3, ['b']⟩], 0, false, none⟩
    | 3 => ⟨.dir, 1, [⟨3, dot⟩, ⟨2, dotdot⟩], 1, true, none⟩
    | _ => ⟨.free, 0, [], 0, false, none⟩
  outstanding := 0
  cwd p := if p.val = 0 then 3 else 1
  pc _ := .user
  panic := none

theorem nested_quiet : nested.Quiet where
  user _ := rfl
  panic := rfl
  counted i := by
    rw [Fin.sum_univ_two]
    match i with
    | 0 | 1 | 2 | 3 => decide
    | i + 4 => simp [nested]

def nexts (p : Fin 2) (count : ℕ) : List (Fin 2 × Action) := List.replicate count (p, .next 3)

/-- `getcwd` in `/a/b` as far as the reference on `/a`. -/
def climbToParent (p : Fin 2) : List (Fin 2 × Action) := (p, .getcwd) :: nexts p 8

def remove (p : Fin 2) (elements : List Name) (count : ℕ) : List (Fin 2 × Action) :=
  (p, .call .unlink ⟨true, elements⟩) :: nexts p count

/-- A directory made in `/a` meanwhile does not disturb the walk, which drops `/a` outside of all
transactions. -/
theorem iput_in_transaction_mkdir : ∃ state : State 2,
    state.pc 0 = .tidy [.put 2] (.climb 1 [['a'], ['b']]) ∧ InTransaction state := by
  have executed : (System.execute (System.guard (Anchored 8) (step 8)) nested
      (climbToParent 0 ++ (1, .call .mkdir ⟨true, [['a'], ['c']]⟩) :: nexts 1 18 ++ nexts 0 6)).map
        (fun after => after.pc 0) = some (.tidy [.put 2] (.climb 1 [['a'], ['b']])) := by
    decide +kernel
  have sound : ∀ before label after,
      System.guard (Anchored 8) (step 8) before label = some after →
        ((system 2 8).restrict (Anchored 8)).step before label after :=
    System.guard_sound fun _ _ _ taken => taken
  obtain ⟨state, run, walk⟩ := System.Run.existsOfExecute sound executed
  exact ⟨state, walk, iput_in_transaction (run.reachable (.start nested_quiet))⟩

/-- Both directories are removed while the walk holds `/a`: it is the walk that drops the last
reference of `/a`, and no process is inside a transaction. -/
theorem unlinked_parent_freed : ∃ state : State 2, (system 2 8).Reachable state ∧
    state.panic = some (0, .logWrite) ∧ ¬ InTransaction state := by
  have executed : (System.execute (step 8) nested
      (climbToParent 0 ++ remove 1 [['a'], ['b']] 19 ++ remove 1 [['a']] 15 ++ nexts 0 8)).map
        (fun after => after.panic) = some (some (0, .logWrite)) := by
    decide +kernel
  have sound : ∀ before label after, step 8 before label = some after →
      (system 2 8).step before label after := fun _ _ _ taken => taken
  obtain ⟨state, run, panic⟩ := System.Run.existsOfExecute sound executed
  exact ⟨state, run.reachable (.start nested_quiet), panic, fun inside => inside.log 0 panic⟩

end OsLab.Kernel.Fs
