import OsLab.Kernel.DirectoryTree
import OsLab.Library.References

/-!
What a completed call of `sysfile.c` can do to a sane file system, and that it keeps it sane.
-/

namespace OsLab.Kernel.FileSys

open OsLab.Library
open OsLab.Library.CString
open OsLab.Kernel.Fs (FileType)

variable {n : ℕ} {st after : State n} {d dp off i ip : ℕ}

/-! ### Where `namex` goes -/

/-- A set of inodes that no path leads out of, and that keep a link or a reference. -/
structure Closed (st : State n) (may : ℕ → Prop) : Prop where
  kept : ∀ i, may i → (st.inode i).nlink ≠ 0 ∨ (st.inode i).ref ≠ 0
  next : ∀ d name i off, may d → IsDir st d →
    dirlookup (st.inode d) name = .ok (some (i, off)) → may i

theorem skipelem_plain {path name rest : Bytes} (split : skipelem path = some (name, rest)) :
    Plain name ∧ (∀ c ∈ name, c ∈ path) ∧ ∀ c ∈ rest, c ∈ path := by
  have inside := (List.dropWhile_suffix (l := path) fun c => decide (c = slash)).subset
  rw [skipelem] at split
  split at split
  · simp at split
  · rename_i c s here
    rw [here] at inside
    have first : c ≠ slash := by
      have head := List.head?_dropWhile_not (fun c => decide (c = slash)) path
      rw [here] at head
      simpa using head
    simp only [Option.some.injEq, Prod.mk.injEq] at split
    obtain ⟨rfl, rfl⟩ := split
    have taken : ∀ x ∈ ((c :: s).takeWhile fun c => decide (c ≠ slash)).take DIRSIZ,
        x ∈ (c :: s).takeWhile fun c => decide (c ≠ slash) := fun x => List.mem_of_mem_take
    constructor
    · constructor
      · rw [List.takeWhile_cons_of_pos (by simpa using first), DIRSIZ]
        simp
      · intro member
        simpa using List.mem_takeWhile_imp (taken _ member)
      · simp
    · constructor
      · intro x member
        exact inside ((List.takeWhile_prefix _).subset (taken x member))
      · intro x member
        exact inside ((List.dropWhile_suffix _).subset ((List.dropWhile_suffix _).subset member))

theorem namexLoop_closed {may : ℕ → Prop} (closed : Closed st may) {nameiparent : Bool}
    {last path : Bytes} {found : Option (ℕ × Bytes)} (start : may d) (clean : ∀ c ∈ path, c ≠ 0)
    (result : namexLoop nameiparent d last path (st.get d) = .ok (found, after)) :
    (found = none ∧ after = st) ∨ ∃ i name, found = some (i, name) ∧ after = st.get i ∧ may i ∧
      (nameiparent = true → IsDir st i ∧ Plain name ∧ ∀ c ∈ name, c ≠ 0) := by
  induction size : path.length using Nat.strong_induction_on generalizing d last path with
  | _ size ih =>
      have drop : (st.get d).put d = st := State.get_put (closed.kept d start)
      cases split : skipelem path with
      | none =>
          rw [namexLoop_none split] at result
          split at result
          · simp only [Except.ok.injEq, Prod.mk.injEq, drop] at result
            exact .inl ⟨result.1.symm, result.2.symm⟩
          · rename_i whole
            simp only [Except.ok.injEq, Prod.mk.injEq] at result
            exact .inr ⟨d, last, result.1.symm, result.2.symm, start, fun parent =>
              absurd parent whole⟩
      | some element =>
          obtain ⟨name, rest⟩ := element
          obtain ⟨plain, inside, behind⟩ := skipelem_plain split
          rw [namexLoop_some split, drop] at result
          obtain ⟨-, -, result⟩ := bind_ok result
          split at result
          · simp only [Except.ok.injEq, Prod.mk.injEq] at result
            exact .inl ⟨result.1.symm, result.2.symm⟩
          · rename_i dir
            simp only [State.get_type, ne_eq, not_not] at dir
            split at result
            · simp only [Except.ok.injEq, Prod.mk.injEq] at result
              exact .inr ⟨d, name, result.1.symm, result.2.symm, start, fun _ =>
                ⟨dir, plain, fun c member => clean c (inside c member)⟩⟩
            · obtain ⟨entry, looked, result⟩ := bind_ok result
              rw [State.dirlookup_get] at looked
              match entry with
              | none =>
                  simp only [Except.ok.injEq, Prod.mk.injEq] at result
                  exact .inl ⟨result.1.symm, result.2.symm⟩
              | some (next, off) =>
                  simp only [State.get_get_put (closed.kept d start)] at result
                  exact ih rest.length (size ▸ skipelem_length split)
                    (closed.next d name next off start dir looked)
                    (fun c member => clean c (behind c member)) result rfl

/-! ### What `create` does -/

def link (st : State n) (dp : ℕ) (name : Bytes) (ip : ℕ) (type : FileType) : State n :=
  let made : Inode :=
    { type := type, nlink := 1,
      entries := if type = .dir then [entry dot ip, entry dotdot dp] else [],
      data := [], ref := (st.inode ip).ref }
  let linked := dirlink (st.inode dp) name ip
  (st.setInode ip made).setInode dp
    { linked with nlink := if type = .dir then linked.nlink + 1 else linked.nlink }

/-- Nothing changes but inodes that are free, and the offsets of open files. -/
structure Quiet (st after : State n) : Prop where
  frees : Frees st after fun i => (st.inode i).type = .free
  ref : ∀ i, (after.inode i).ref = (st.inode i).ref
  cwd : after.cwd = st.cwd
  ofile : ∀ p, (after.ofile p).map OpenFile.ip = (st.ofile p).map OpenFile.ip

structure Inv (st : State n) : Prop where
  sane : Sane st
  blank : ∀ i, (st.inode i).type = .free → (st.inode i).nlink = 0 ∧ (st.inode i).ref = 0
  settled : ∀ i, (st.inode i).type ≠ .free → (st.inode i).nlink ≠ 0 ∨ (st.inode i).ref ≠ 0
  refs : Covers (fun i => (st.inode i).ref) fun p => st.cwd p :: (st.ofile p).map OpenFile.ip
  files : ∀ p, ∀ i ∈ (st.ofile p).map OpenFile.ip,
    (st.inode i).type ≠ .free ∧ (st.inode i).type ≠ .dir

/-- A directory from which the `..` entries lead to the root. -/
inductive Rooted (st : State n) : ℕ → Prop
  | root : IsDir st ROOTINO → Rooted st ROOTINO
  | under {d : ℕ} : IsDir st d → Rooted st (parent st d) → Rooted st d

theorem Rooted.isDir (rooted : Rooted st d) : IsDir st d := by
  cases rooted with
  | root dir => exact dir
  | under dir _ => exact dir

theorem Rooted.up (sane : Sane st) (rooted : Rooted st d) : Rooted st (parent st d) := by
  cases rooted with
  | root dir =>
      rw [sane.root.2]
      exact .root dir
  | under _ above => exact above

theorem Rooted.top (rooted : Rooted st d) : ∃ k, (parent st)^[k] d = ROOTINO := by
  induction rooted with
  | root _ => exact ⟨0, rfl⟩
  | under _ _ ih =>
      obtain ⟨k, top⟩ := ih
      exact ⟨k + 1, top⟩

theorem Rooted.iterate (sane : Sane st) (rooted : Rooted st d) (k : ℕ) :
    Rooted st ((parent st)^[k] d) := by
  induction k with
  | zero => exact rooted
  | succ k ih =>
      rw [Function.iterate_succ_apply']
      exact ih.up sane

def Home (st : State n) : Prop := ∀ p, Rooted st (st.cwd p)

/-- Where a path may lead: to directories below the root and to other inodes with a name. -/
def May (st : State n) (i : ℕ) : Prop :=
  (st.inode i).type ≠ .free ∧ (IsDir st i → Rooted st i)

theorem Rooted.may (rooted : Rooted st d) : May st d := by
  refine ⟨?_, fun _ => rooted⟩
  have dir : (st.inode d).type = .dir := rooted.isDir
  simp [dir]

namespace Inv

variable (inv : Inv st)
include inv

theorem closed : Closed st (May st) where
  kept := fun i may => inv.settled i may.1
  next := by
    intro d name i off may dir looked
    have rooted := may.2 dir
    rcases inv.sane.dirlookup_cases dir looked with ⟨-, rfl⟩ | ⟨-, rfl⟩ | names
    · exact may
    · exact (rooted.up inv.sane).may
    · obtain ⟨-, allocated, up⟩ := inv.sane.named d off i names
      refine ⟨allocated, fun below => .under below ?_⟩
      rw [up below]
      exact rooted

theorem namex (home : Home st) {p : Fin n} {nameiparent : Bool} {path : Bytes}
    {found : Option (ℕ × Bytes)} (clean : ∀ c ∈ path, c ≠ 0)
    (result : FileSys.namex st p nameiparent path = .ok (found, after)) :
    (found = none ∧ after = st) ∨ ∃ i name, found = some (i, name) ∧ after = st.get i ∧ May st i ∧
      (nameiparent = true → IsDir st i ∧ Plain name ∧ ∀ c ∈ name, c ≠ 0) := by
  refine namexLoop_closed inv.closed ?_ clean result
  split
  · exact (Rooted.root inv.sane.root.1).may
  · exact (home p).may

theorem quiet : Quiet st st where
  frees := by
    refine ⟨fun i free => (inv.blank i free).1, fun i free => ⟨free, (inv.blank i free).1⟩, ?_⟩
    exact fun _ _ => ⟨rfl, rfl, rfl⟩
  ref := fun _ => rfl
  cwd := rfl
  ofile := fun _ => rfl

end Inv

theorem dirlink_new {new : Inode} {name : Bytes} (clear : ∀ de ∈ new.entries, de.inum ≠ 0) :
    dirlink new name i = { new with entries := new.entries ++ [entry name i] } := by
  have none : new.entries.findIdx? (fun de => de.inum = 0) = none := by
    rw [List.findIdx?_eq_none_iff]
    simpa using clear
  rw [dirlink, none]

theorem dirlink_dots {new : Inode} (empty : new.entries = []) (used : ip ≠ 0) :
    dirlink (dirlink new dot ip) dotdot dp =
      { new with entries := [entry dot ip, entry dotdot dp] } := by
  have first : dirlink new dot ip = { new with entries := new.entries ++ [entry dot ip] } :=
    dirlink_new (by simp [empty])
  rw [first]
  rw [dirlink_new (by simp [empty, entry, used])]
  simp [empty]

theorem link_inode (name : Bytes) (type : FileType) (i : ℕ) :
    (link st dp name ip type).inode i =
      if i = dp then
        let linked := dirlink (st.inode dp) name ip
        { linked with nlink := if type = .dir then linked.nlink + 1 else linked.nlink }
      else if i = ip then
        { type := type, nlink := 1,
          entries := if type = .dir then [entry dot ip, entry dotdot dp] else [],
          data := [], ref := (st.inode ip).ref }
      else st.inode i := by
  by_cases up : i = dp
  · subst i
    simp [link, State.setInode]
  · by_cases new : i = ip
    · subst i
      simp [link, State.setInode, up]
    · simp [link, State.setInode, up, new]

namespace Inv

variable (inv : Inv st)
include inv

theorem links {name : Bytes} {type : FileType} (dir : IsDir st dp)
    (fresh : (st.inode ip).type = .free) (number : ip ≠ 0) (allocated : type ≠ .free)
    (plain : Plain name) (clean : ∀ c ∈ name, c ≠ 0)
    (absent : dirlookup (st.inode dp) name = .ok none) :
    ∃ off, Links st (link st dp name ip type) dp off ip name type := by
  obtain ⟨off, rewrites, empty⟩ := dirlink_rewrites (st.inode dp) name ip
  have apart : ip ≠ dp := by
    rintro rfl
    rw [IsDir, fresh] at dir
    cases dir
  have at_dp : (link st dp name ip type).inode dp = _ := link_inode name type dp
  have at_ip : (link st dp name ip type).inode ip = _ := link_inode name type ip
  rw [if_pos rfl] at at_dp
  rw [if_neg apart, if_pos rfl] at at_ip
  exact ⟨off, {
    dir := dir
    fresh := fresh
    number := number
    later := by
      obtain ⟨used, rest, dots⟩ := inv.sane.dots dp dir
      by_contra early
      have nonzero : dp ≠ 0 := fun zero => inv.sane.zero (zero ▸ dir)
      rcases (by omega : off = 0 ∨ off = 1) with rfl | rfl
      · exact nonzero (empty (entry dot dp) (by rw [dots]; rfl))
      · exact used (empty (entry dotdot (parent st dp)) (by rw [dots]; rfl))
    empty := empty
    rewrites := by rwa [at_dp]
    above := by
      rw [IsDir, at_dp]
      exact dir
    nlink := by
      rw [at_dp]
      by_cases made : type = .dir
      · simp [made, dirlink]
      · simp [made, dirlink]
    new := by
      rw [at_ip]
      exact ⟨rfl, rfl, rfl⟩
    allocated := allocated
    others := by
      intro i up new
      rw [link_inode, if_neg up, if_neg new]
      exact ⟨rfl, rfl, rfl⟩
    plain := plain
    clean := clean
    absent := by
      intro de member used same
      rw [dirlookup, if_neg fun other => other dir] at absent
      simp only [Except.ok.injEq, Option.map_eq_none_iff, List.find?_eq_none] at absent
      obtain ⟨k, here⟩ := List.mem_iff_getElem?.mp member
      have missing := absent (de, k) (List.mem_zipIdx_iff_getElem?.mpr here)
      rw [decide_eq_true_eq] at missing
      refine missing ⟨used, ?_⟩
      rw [namecmp_eq_zero, List.take_of_length_le plain.short, text_eq_self clean, same] }⟩

theorem put_linked {name : Bytes} {type : FileType} (dir : IsDir st dp) (apart : ip ≠ dp) :
    (((st.get dp).setInode ip
        { type := type, nlink := 1,
          entries := if type = .dir then [entry dot ip, entry dotdot dp] else [],
          data := [], ref := (st.inode ip).ref + 1 }).setInode dp
      { dirlink ((st.get dp).inode dp) name ip with
        nlink := if type = .dir then (dirlink ((st.get dp).inode dp) name ip).nlink + 1
          else (dirlink ((st.get dp).inode dp) name ip).nlink }).put dp =
      (link st dp name ip type).get ip := by
  have allocated : (st.inode dp).type ≠ .free := by
    rw [dir]
    simp
  have kept := inv.settled dp allocated
  have links := inv.sane.counted dp
  have held : ¬ ((st.inode dp).ref + 1 = 1 ∧
      (if type = .dir then (st.inode dp).nlink + 1 else (st.inode dp).nlink) = 0) := by
    split <;> omega
  simp only [State.put, State.setInode, State.get, Function.update_self, dirlink, link] at held ⊢
  rw [if_neg held]
  simp only [State.mk.injEq, and_true]
  funext i
  by_cases up : i = dp
  · subst i
    simp [apart.symm]
  · by_cases new : i = ip
    · subst i
      simp [up]
    · simp [up, new]

theorem put_given_up (dir : IsDir st dp) (fresh : (st.inode ip).type = .free) (type : FileType) :
    Quiet st ((((st.get dp).setInode ip
      { type := type, nlink := 0, entries := [], data := [],
        ref := (st.inode ip).ref + 1 }).put ip).put dp) := by
  obtain ⟨unlinked, unused⟩ := inv.blank ip fresh
  have apart : dp ≠ ip := by
    rintro rfl
    rw [IsDir, fresh] at dir
    cases dir
  have allocated : (st.inode dp).type ≠ .free := by
    rw [dir]
    simp
  let cleared : State n := st.setInode ip
    { type := .free, nlink := 0, entries := [], data := [], ref := 0 }
  have before : ((st.get dp).setInode ip
      { type := type, nlink := 0, entries := [], data := [],
        ref := (st.inode ip).ref + 1 }).put ip = cleared.get dp := by
    simp only [State.put, State.get, State.setInode, cleared, Function.update_self, unused,
      Function.update_idem, Function.update_of_ne apart]
    simp [Function.update_comm apart]
  have kept : (cleared.inode dp).nlink ≠ 0 ∨ (cleared.inode dp).ref ≠ 0 := by
    simpa [cleared, State.setInode, apart] using inv.settled dp allocated
  rw [before, State.get_put kept]
  have others : ∀ i, i ≠ ip → cleared.inode i = st.inode i := by
    intro i other
    simp [cleared, State.setInode, other]
  have here : cleared.inode ip =
      { type := .free, nlink := 0, entries := [], data := [], ref := 0 } := by
    simp [cleared, State.setInode]
  exact {
    frees := {
      unlinked := fun i free => (inv.blank i free).1
      freed := by
        intro i free
        by_cases same : i = ip
        · rw [same, here]
          exact ⟨rfl, rfl⟩
        · rw [others i same]
          exact ⟨free, (inv.blank i free).1⟩
      others := by
        intro i allocated
        rw [others i fun same => allocated (same ▸ fresh)]
        exact ⟨rfl, rfl, rfl⟩ }
    ref := by
      intro i
      by_cases same : i = ip
      · rw [same, here, unused]
      · rw [others i same]
    cwd := rfl
    ofile := fun _ => rfl }

theorem create (home : Home st) {ninodes : ℕ} {p : Fin n} {path : Bytes} {type : FileType}
    {space : ℕ} {found : Option ℕ} (clean : ∀ c ∈ path, c ≠ 0) (allocated : type ≠ .free)
    (result : FileSys.create ninodes st p path type space = .ok (found, after)) :
    (found = none ∧ Quiet st after) ∨ ∃ ip, found = some ip ∧
      ((type = .file ∧ after = st.get ip ∧ (st.inode ip).type ≠ .free ∧
          (st.inode ip).type ≠ .dir) ∨
        ∃ dp name off, Rooted st dp ∧ after = (link st dp name ip type).get ip ∧
          Links st (link st dp name ip type) dp off ip name type) := by
  rw [FileSys.create] at result
  obtain ⟨⟨walk, middle⟩, walked, rest⟩ := bind_ok result
  rcases inv.namex home clean walked with ⟨rfl, rfl⟩ | ⟨dp, name, rfl, rfl, may, parent⟩
  · simp only [Except.ok.injEq, Prod.mk.injEq] at rest
    obtain ⟨rfl, rfl⟩ := rest
    exact .inl ⟨rfl, inv.quiet⟩
  · obtain ⟨dir, plain, unbroken⟩ := parent rfl
    have back : (st.get dp).put dp = st := State.get_put (inv.settled dp may.1)
    obtain ⟨-, -, locked⟩ := bind_ok rest
    obtain ⟨entry, looked, branch⟩ := bind_ok locked
    rw [State.dirlookup_get] at looked
    match entry with
    | some (ip, off) =>
        have target := inv.closed.next dp name ip off may dir looked
        simp only [State.get_get_put (inv.settled dp may.1)] at branch
        obtain ⟨-, -, branch⟩ := bind_ok branch
        split at branch
        · rename_i file
          simp only [Except.ok.injEq, Prod.mk.injEq] at branch
          obtain ⟨rfl, rfl⟩ := branch
          refine .inr ⟨ip, rfl, .inl ⟨file.1, rfl, target.1, ?_⟩⟩
          rw [State.get_type] at file
          intro dir
          simp [dir] at file
        · simp only [Except.ok.injEq, Prod.mk.injEq,
            State.get_put (inv.settled ip target.1)] at branch
          obtain ⟨rfl, rfl⟩ := branch
          exact .inl ⟨rfl, inv.quiet⟩
    | none =>
        simp only at branch
        cases scan : ialloc ninodes (st.get dp).inode with
        | none =>
            simp only [scan, back, Except.ok.injEq, Prod.mk.injEq] at branch
            obtain ⟨rfl, rfl⟩ := branch
            exact .inl ⟨rfl, inv.quiet⟩
        | some ip =>
            have free := List.find?_some scan
            simp only [State.get_type, decide_eq_true_eq] at free
            have apart : ip ≠ dp := by
              rintro rfl
              exact may.1 free.2
            have ref : ((st.get dp).inode ip).ref = (st.inode ip).ref := by
              rw [State.get_ref, if_neg apart, Nat.add_zero]
            simp only [scan] at branch
            rw [ref] at branch
            by_cases fits : (if type = .dir then 3 else 1) ≤ space
            · obtain ⟨off, links⟩ : ∃ off, Links st (link st dp name ip type) dp off ip name type :=
                inv.links dir free.2 (by omega) allocated plain unbroken looked
              simp only [if_pos fits, Except.ok.injEq, Prod.mk.injEq] at branch
              obtain ⟨rfl, rfl⟩ := branch
              refine .inr ⟨ip, rfl, .inr ⟨dp, name, off, may.2 dir, ?_, links⟩⟩
              rw [← inv.put_linked dir apart]
              congr 2
              congr 1
              split
              · rw [dirlink_dots rfl (by omega)]
              · rfl
            · simp only [if_neg fits, Except.ok.injEq, Prod.mk.injEq] at branch
              obtain ⟨rfl, rfl⟩ := branch
              exact .inl ⟨rfl, inv.put_given_up dir free.2 type⟩

end Inv

/-! ### The invariant over a call -/

theorem Frees.none (same : ∀ i, (after.inode i).type = (st.inode i).type ∧
    (after.inode i).nlink = (st.inode i).nlink ∧ (after.inode i).entries = (st.inode i).entries) :
    Frees st after fun _ => False where
  unlinked := fun _ gone => gone.elim
  freed := fun _ gone => gone.elim
  others := fun i _ => same i

namespace Quiet

variable (quiet : Quiet st after)
include quiet

theorem isDir : IsDir after d ↔ IsDir st d := by
  rw [quiet.frees.isDir]
  refine and_iff_left_of_imp fun dir free => ?_
  rw [IsDir, free] at dir
  cases dir

theorem allocated (kept : (st.inode i).type ≠ .free) : (after.inode i).type ≠ .free := by
  rwa [(quiet.frees.others i kept).1]

theorem inv (inv : Inv st) : Inv after where
  sane := quiet.frees.sane inv.sane
  blank := by
    intro i free
    have before : (st.inode i).type = .free := by
      by_contra kept
      exact quiet.allocated kept free
    rw [quiet.ref]
    exact ⟨(quiet.frees.freed i before).2, (inv.blank i before).2⟩
  settled := by
    intro i kept
    have before : (st.inode i).type ≠ .free := fun free => kept (quiet.frees.freed i free).1
    rw [quiet.ref, (quiet.frees.others i before).2.1]
    exact inv.settled i before
  refs := by
    have refs := inv.refs
    simpa only [Covers, quiet.ref, quiet.cwd, quiet.ofile] using refs
  files := by
    intro p i opened
    rw [quiet.ofile] at opened
    obtain ⟨kept, other⟩ := inv.files p i opened
    rw [(quiet.frees.others i kept).1]
    exact ⟨kept, other⟩

end Quiet

theorem Inv.linked (inv : Inv st) {name : Bytes} {type : FileType}
    (links : Links st (link st dp name ip type) dp off ip name type) :
    Inv (link st dp name ip type) where
  sane := links.sane inv.sane
  blank := by
    intro i free
    have before : (st.inode i).type = .free := by
      by_contra kept
      exact links.allocated_after kept free
    have up : i ≠ dp := by
      rintro rfl
      have dir : (st.inode i).type = .dir := links.dir
      simp [before] at dir
    have new : i ≠ ip := by
      rintro rfl
      exact links.allocated (links.new.1.symm.trans free)
    rw [link_inode, if_neg up, if_neg new]
    exact inv.blank i before
  settled := by
    intro i kept
    by_cases new : i = ip
    · subst i
      left
      rw [links.new.2.1]
      simp
    · by_cases up : i = dp
      · subst i
        have allocated : (st.inode dp).type ≠ .free := by
          rw [links.dir]
          simp
        have before := inv.settled dp allocated
        have counted := inv.sane.counted dp
        have ref : ((link st dp name ip type).inode dp).ref = (st.inode dp).ref := by
          rw [link_inode, if_pos rfl]
          rfl
        rw [links.nlink, ref]
        split <;> omega
      · rw [link_inode, if_neg up, if_neg new] at kept ⊢
        exact inv.settled i kept
  refs := by
    refine inv.refs.mono fun i => ?_
    rw [link_inode]
    split
    · subst i
      rfl
    · split
      · subst i
        rfl
      · rfl
  files := by
    intro p i opened
    obtain ⟨kept, other⟩ := inv.files p i opened
    refine ⟨links.allocated_after kept, fun dir => ?_⟩
    rcases links.isDir.mp dir with before | ⟨rfl, -⟩
    · exact other before
    · exact kept links.fresh

structure Opens (st after : State n) (p : Fin n) (ip : ℕ) : Prop where
  same : ∀ i, (after.inode i).type = (st.inode i).type ∧
    (after.inode i).nlink = (st.inode i).nlink ∧ (after.inode i).entries = (st.inode i).entries
  ref : ∀ i, (after.inode i).ref = (st.inode i).ref + if i = ip then 1 else 0
  cwd : after.cwd = st.cwd
  ofile : ∃ f : OpenFile, f.ip = ip ∧
    after.ofile = Function.update st.ofile p (st.ofile p ++ [f])

theorem Opens.inv {p : Fin n} (opens : Opens st after p ip) (inv : Inv st)
    (kind : (st.inode ip).type ≠ .free ∧ (st.inode ip).type ≠ .dir) : Inv after where
  sane := (Frees.none opens.same).sane inv.sane
  blank := by
    intro i free
    rw [(opens.same i).1] at free
    have other : i ≠ ip := by
      rintro rfl
      exact kind.1 free
    rw [(opens.same i).2.1, opens.ref, if_neg other]
    exact inv.blank i free
  settled := by
    intro i kept
    rw [(opens.same i).1] at kept
    rw [(opens.same i).2.1, opens.ref]
    exact (inv.settled i kept).imp_right fun held => by omega
  refs := by
    obtain ⟨f, rfl, files⟩ := opens.ofile
    have holds : (fun q => after.cwd q :: (after.ofile q).map OpenFile.ip) =
        Function.update (fun q => st.cwd q :: (st.ofile q).map OpenFile.ip) p
          (st.cwd p :: (st.ofile p ++ [f]).map OpenFile.ip) := by
      funext q
      rw [opens.cwd, files]
      by_cases mine : q = p
      · subst q
        simp
      · simp [mine]
    rw [holds]
    refine inv.refs.move fun i => ?_
    rw [opens.ref]
    simp only [List.map_append, List.map_cons, List.map_nil, List.count_cons, List.count_append,
      List.count_nil, beq_iff_eq]
    by_cases same : i = f.ip
    · subst i
      simp
      omega
    · rw [if_neg same, if_neg (Ne.symm same)]
      omega
  files := by
    intro q i opened
    obtain ⟨f, rfl, files⟩ := opens.ofile
    rw [(opens.same i).1]
    rw [files] at opened
    by_cases mine : q = p
    · subst q
      rw [Function.update_self, List.map_append, List.mem_append] at opened
      rcases opened with before | new
      · exact inv.files p i before
      · obtain rfl : i = f.ip := by simpa using new
        exact kind
    · rw [Function.update_of_ne mine] at opened
      exact inv.files q i opened

/-- References come and go, and inodes without links and references are freed. -/
structure Settles (st after : State n) (gone : ℕ → Prop) : Prop where
  frees : Frees st after gone
  unused : ∀ i, gone i → (after.inode i).ref = 0
  kept : ∀ i, ¬ gone i → (st.inode i).type ≠ .free →
    (st.inode i).nlink ≠ 0 ∨ (after.inode i).ref ≠ 0
  blank : ∀ i, ¬ gone i → (st.inode i).type = .free →
    (st.inode i).nlink = 0 ∧ (after.inode i).ref = 0
  refs : Covers (fun i => (after.inode i).ref) fun p =>
    after.cwd p :: (after.ofile p).map OpenFile.ip
  ofile : after.ofile = st.ofile

namespace Settles

variable {gone : ℕ → Prop} (settles : Settles st after gone)
include settles

theorem held_stays {p : Fin n} (held : i ∈ after.cwd p :: (after.ofile p).map OpenFile.ip) :
    ¬ gone i := by
  intro freed
  have pos := settles.refs.pos p held
  rw [settles.unused i freed] at pos
  exact Nat.lt_irrefl 0 pos

theorem inv (sane : Sane st) (files : ∀ p, ∀ i ∈ (st.ofile p).map OpenFile.ip,
    (st.inode i).type ≠ .free ∧ (st.inode i).type ≠ .dir) : Inv after where
  sane := settles.frees.sane sane
  blank := by
    intro i free
    by_cases freed : gone i
    · exact ⟨(settles.frees.freed i freed).2, settles.unused i freed⟩
    · rw [(settles.frees.others i freed).1] at free
      rw [(settles.frees.others i freed).2.1]
      exact settles.blank i freed free
  settled := by
    intro i kept
    have stays : ¬ gone i := fun freed => kept (settles.frees.freed i freed).1
    rw [(settles.frees.others i stays).1] at kept
    rw [(settles.frees.others i stays).2.1]
    exact settles.kept i stays kept
  refs := settles.refs
  files := by
    intro p i opened
    have stays := settles.held_stays (p := p) (List.mem_cons_of_mem _ opened)
    rw [settles.ofile] at opened
    rw [(settles.frees.others i stays).1]
    exact files p i opened

end Settles

def putInode (ip : Inode) : Inode :=
  if ip.ref = 1 ∧ ip.nlink = 0 then
    { type := .free, nlink := ip.nlink, entries := [], data := [], ref := ip.ref - 1 }
  else { ip with ref := ip.ref - 1 }

theorem putInode_ref (ip : Inode) : (putInode ip).ref = ip.ref - 1 := by
  rw [putInode]
  split <;> rfl

theorem State.put_inode :
    (st.put i).inode = Function.update st.inode i (putInode (st.inode i)) := by
  rw [State.put, putInode]
  split <;> rfl

theorem State.put_others : (st.put i).cwd = st.cwd ∧ (st.put i).ofile = st.ofile := by
  rw [State.put]
  split <;> exact ⟨rfl, rfl⟩

/-- A name that is taken away, before its inode and the directory are let go. -/
def unlinked (st : State n) (dp off ip : ℕ) : State n :=
  let dir := st.inode dp
  let target := st.inode ip
  (st.setInode dp { dir with
    entries := dir.entries.set off unused
    nlink := if target.type = .dir then dir.nlink - 1 else dir.nlink }).setInode ip
      { target with nlink := target.nlink - 1 }

theorem unlinked_inode (apart : ip ≠ dp) (i : ℕ) : (unlinked st dp off ip).inode i =
    if i = dp then
      { st.inode dp with
        entries := (st.inode dp).entries.set off unused
        nlink := if (st.inode ip).type = .dir then (st.inode dp).nlink - 1
          else (st.inode dp).nlink }
    else if i = ip then { st.inode ip with nlink := (st.inode ip).nlink - 1 } else st.inode i := by
  by_cases up : i = dp
  · subst i
    simp [unlinked, State.setInode, apart.symm]
  · by_cases target : i = ip
    · subst i
      simp [unlinked, State.setInode, up]
    · simp [unlinked, State.setInode, up, target]

theorem unlinked_unlinks (names : Names st dp off ip) (apart : ip ≠ dp) :
    Unlinks st (unlinked st dp off ip) dp off ip where
  names := names
  rewrites := by
    obtain ⟨-, -, -, de, here, -⟩ := names
    rw [unlinked_inode apart, if_pos rfl]
    exact .set (List.getElem?_eq_some_iff.mp here).1
  others := by
    intro i up
    rw [unlinked_inode apart, if_neg up]
    split
    · subst i
      rfl
    · rfl
  types := by
    intro i
    rw [unlinked_inode apart]
    split
    · subst i
      rfl
    · split
      · subst i
        rfl
      · rfl
  nlink := by
    intro i
    rw [unlinked_inode apart]
    by_cases up : i = dp
    · subst i
      simp only [↓reduceIte, true_and, if_neg apart.symm]
      split <;> omega
    · rw [if_neg up]
      by_cases target : i = ip
      · subst i
        simp [up]
      · simp [up, target]

theorem put_put_inode (apart : ip ≠ dp) (i : ℕ) :
    let held := (st.get dp).get ip
    let written := (held.setInode dp { held.inode dp with
      entries := (held.inode dp).entries.set off unused
      nlink := if (held.inode ip).type = .dir then (held.inode dp).nlink - 1
        else (held.inode dp).nlink }).put dp
    ((written.setInode ip { written.inode ip with nlink := (written.inode ip).nlink - 1 }).put
      ip).inode i =
      if i = dp ∨ i = ip then
        putInode { (unlinked st dp off ip).inode i with ref := (st.inode i).ref + 1 }
      else st.inode i := by
  intro held written
  have others : ∀ i, i ≠ dp → i ≠ ip → held.inode i = st.inode i := by
    intro i up target
    simp [held, State.get, State.setInode, up, target]
  have at_dp : held.inode dp = { st.inode dp with ref := (st.inode dp).ref + 1 } := by
    simp [held, State.get, State.setInode, apart.symm]
  have at_ip : held.inode ip = { st.inode ip with ref := (st.inode ip).ref + 1 } := by
    simp [held, State.get, State.setInode, apart]
  have target : written.inode ip = held.inode ip := by
    rw [State.put_inode, Function.update_of_ne apart]
    exact Function.update_of_ne apart _ _
  rw [State.put_inode, unlinked_inode apart]
  by_cases up : i = dp
  · subst i
    rw [Function.update_of_ne apart.symm, if_pos (.inl rfl), if_pos rfl]
    simp only [State.setInode, written, State.put_inode, Function.update_of_ne apart.symm,
      Function.update_self, at_dp, at_ip]
  · by_cases here : i = ip
    · subst i
      rw [Function.update_self, if_pos (.inr rfl), if_neg up, if_pos rfl]
      simp only [State.setInode, Function.update_self, target, at_ip]
    · rw [Function.update_of_ne here, if_neg (by simp [up, here])]
      simp only [State.setInode, written, State.put_inode, Function.update_of_ne here,
        Function.update_of_ne up]
      exact others i up here

theorem Inv.put_unlinked (inv : Inv st) (apart : ip ≠ dp) (result : ∀ i, after.inode i =
      if i = dp ∨ i = ip then
        putInode { (unlinked st dp off ip).inode i with ref := (st.inode i).ref + 1 }
      else st.inode i)
    (cwd : after.cwd = st.cwd) (ofile : after.ofile = st.ofile)
    (allocated : (st.inode dp).type ≠ .free ∧ (st.inode ip).type ≠ .free) :
    Settles (unlinked st dp off ip) after fun i => (i = dp ∨ i = ip) ∧
      ((unlinked st dp off ip).inode i).nlink = 0 ∧ (st.inode i).ref = 0 := by
  have ref : ∀ i, (after.inode i).ref = (st.inode i).ref := by
    intro i
    rw [result]
    split
    · rw [putInode_ref]
      rfl
    · rfl
  have others : ∀ i, ¬ (i = dp ∨ i = ip) → (unlinked st dp off ip).inode i = st.inode i := by
    intro i other
    rw [not_or] at other
    rw [unlinked_inode apart, if_neg other.1, if_neg other.2]
  exact {
    frees := {
      unlinked := fun _ gone => gone.2.1
      freed := by
        rintro i ⟨here, unlinked, unused⟩
        rw [result, if_pos here, putInode, if_pos (by simp [unlinked, unused])]
        exact ⟨rfl, unlinked⟩
      others := by
        intro i stays
        rw [result]
        by_cases here : i = dp ∨ i = ip
        · have held : ¬ ((st.inode i).ref + 1 = 1 ∧
              ((unlinked st dp off ip).inode i).nlink = 0) := by
            rintro ⟨unused, unlinked⟩
            exact stays ⟨here, unlinked, by omega⟩
          rw [if_pos here, putInode, if_neg held]
          exact ⟨rfl, rfl, rfl⟩
        · rw [if_neg here, others i here]
          exact ⟨rfl, rfl, rfl⟩ }
    unused := by
      rintro i ⟨-, -, unused⟩
      rw [ref, unused]
    kept := by
      intro i stays kept
      rw [ref]
      by_cases here : i = dp ∨ i = ip
      · by_contra none
        rw [not_or, not_not, not_not] at none
        exact stays ⟨here, none⟩
      · rw [others i here] at kept ⊢
        exact inv.settled i kept
    blank := by
      intro i _ free
      rw [ref]
      by_cases here : i = dp ∨ i = ip
      · rw [unlinked_inode apart] at free
        rcases here with rfl | rfl
        · exact absurd (by simpa using free) allocated.1
        · exact absurd (by simpa [apart] using free) allocated.2
      · rw [others i here] at free ⊢
        exact inv.blank i free
    refs := by
      have refs := inv.refs
      simpa only [Covers, ref, cwd, ofile] using refs
    ofile := ofile }

/-! ### One call -/

theorem argstr_clean {arg path : Bytes} (whole : argstr arg = some path) : ∀ c ∈ path, c ≠ 0 := by
  rw [argstr] at whole
  split at whole
  · obtain rfl := Option.some.inj whole
    exact fun c => ne_zero_of_mem_text
  · cases whole

theorem Rooted.evolve (evolves : Evolves st after) (rooted : Rooted st d)
    (kept : ∀ k, (after.inode ((parent st)^[k] d)).type ≠ .free) : Rooted after d := by
  induction rooted with
  | root dir =>
      rcases evolves _ dir with gone | still
      · exact absurd gone (kept 0)
      · exact .root still.1
  | under dir _ ih =>
      rcases evolves _ dir with gone | ⟨still, same⟩
      · exact absurd gone (kept 0)
      · refine .under still ?_
        rw [same]
        exact ih fun k => kept (k + 1)

theorem Rooted.fixed (rooted : Rooted st d) (loop : parent st d = d) : d = ROOTINO := by
  obtain ⟨k, top⟩ := rooted.top
  rwa [Function.iterate_fixed loop] at top

namespace Inv

variable (inv : Inv st)
include inv

theorem held_allocated {p : Fin n} (held : i ∈ st.cwd p :: (st.ofile p).map OpenFile.ip) :
    (st.inode i).type ≠ .free := by
  intro free
  have pos := inv.refs.pos p held
  rw [(inv.blank i free).2] at pos
  exact Nat.lt_irrefl 0 pos

end Inv

theorem Home.stay (home : Home st) (evolves : Evolves st after) (still : Inv after)
    {p : Fin n} (same : after.cwd p = st.cwd p)
    (kept : ∀ k, (after.inode ((parent st)^[k + 1] (st.cwd p))).type ≠ .free) :
    Rooted after (after.cwd p) := by
  rw [same]
  refine (home p).evolve evolves fun k => ?_
  cases k with
  | zero =>
      rw [Function.iterate_zero, id_eq, ← same]
      exact still.held_allocated (p := p) (by simp)
  | succ k => exact kept k

namespace Inv

variable (inv : Inv st)
include inv

theorem sysUnlink (home : Home st) {p : Fin n} {arg : Bytes} {ret : Int}
    (result : FileSys.sysUnlink st p arg = .ok (ret, after)) :
    after = st ∨ ∃ dp off ip gone, Unlinks st (unlinked st dp off ip) dp off ip ∧
      Settles (unlinked st dp off ip) after gone ∧ after.cwd = st.cwd := by
  rw [FileSys.sysUnlink] at result
  split at result
  · simp only [Except.ok.injEq, Prod.mk.injEq] at result
    exact .inl result.2.symm
  · rename_i path whole
    obtain ⟨⟨walk, middle⟩, walked, rest⟩ := bind_ok result
    rcases inv.namex home (argstr_clean whole) walked with
      ⟨rfl, rfl⟩ | ⟨dp, name, rfl, rfl, may, parent⟩
    · simp only [Except.ok.injEq, Prod.mk.injEq] at rest
      exact .inl rest.2.symm
    · obtain ⟨dir, -, -⟩ := parent rfl
      have back : (st.get dp).put dp = st := State.get_put (inv.settled dp may.1)
      obtain ⟨-, -, locked⟩ := bind_ok rest
      by_cases dots : namecmp name dot = 0 ∨ namecmp name dotdot = 0
      · simp only [if_pos dots, back, Except.ok.injEq, Prod.mk.injEq] at locked
        exact .inl locked.2.symm
      · simp only [if_neg dots] at locked
        obtain ⟨entry, looked, branch⟩ := bind_ok locked
        rw [State.dirlookup_get] at looked
        rcases entry with - | ⟨ip, off⟩
        · simp only [back, Except.ok.injEq, Prod.mk.injEq] at branch
          exact .inl branch.2.symm
        · have target := inv.closed.next dp name ip off may dir looked
          have names : Names st dp off ip := by
            rcases inv.sane.dirlookup_cases dir looked with self | up | names
            · exact absurd (.inl self.1) dots
            · exact absurd (.inr up.1) dots
            · exact names
          have apart : ip ≠ dp := by
            rintro rfl
            obtain ⟨low, -, up⟩ := inv.sane.named _ _ _ names
            exact low ((may.2 dir).fixed (up dir))
          obtain ⟨-, -, targeted⟩ := bind_ok branch
          split at targeted
          · cases targeted
          · split at targeted
            · have away : (((st.get dp).get ip).put ip).put dp = st := by
                rw [State.get_put, back]
                simpa [State.get_ref, apart] using inv.settled ip target.1
              simp only [away, Except.ok.injEq, Prod.mk.injEq] at targeted
              exact .inl targeted.2.symm
            · simp only [Except.ok.injEq, Prod.mk.injEq] at targeted
              obtain ⟨-, rfl⟩ := targeted
              refine .inr ⟨dp, off, ip, _, unlinked_unlinks names apart,
                inv.put_unlinked apart ?_ ?_ ?_ ⟨may.1, target.1⟩, ?_⟩
              · exact put_put_inode apart
              · simp [State.put_others, State.setInode]
              · simp [State.put_others, State.setInode]
              · simp [State.put_others, State.setInode]

end Inv

def moved (st : State n) (p : Fin n) (ip : ℕ) : State n :=
  { (st.get ip).put (st.cwd p) with cwd := Function.update st.cwd p ip }

theorem moved_inode (p : Fin n) (i : ℕ) : (moved st p ip).inode i =
    if i = st.cwd p then putInode ((st.get ip).inode i) else (st.get ip).inode i := by
  rw [moved]
  simp only [State.put_inode]
  by_cases old : i = st.cwd p
  · subst i
    rw [Function.update_self, if_pos rfl]
  · rw [Function.update_of_ne old, if_neg old]

theorem moved_ref (inv : Inv st) (p : Fin n) (i : ℕ) :
    ((moved st p ip).inode i).ref + (if i = st.cwd p then 1 else 0) =
      (st.inode i).ref + if i = ip then 1 else 0 := by
  have pos : 0 < (st.inode (st.cwd p)).ref := inv.refs.pos p (by simp)
  rw [moved_inode]
  by_cases old : i = st.cwd p
  · subst i
    rw [if_pos rfl, if_pos rfl, putInode_ref, State.get_ref]
    omega
  · rw [if_neg old, if_neg old, State.get_ref, Nat.add_zero]

theorem Inv.moved (inv : Inv st) (p : Fin n) (allocated : (st.inode ip).type ≠ .free) :
    Settles st (FileSys.moved st p ip) fun i => i = st.cwd p ∧ (st.inode i).nlink = 0 ∧
      ((FileSys.moved st p ip).inode i).ref = 0 where
  frees := {
    unlinked := fun _ gone => gone.2.1
    freed := by
      rintro i ⟨rfl, unlinked, unused⟩
      have pos : 0 < (st.inode (st.cwd p)).ref := inv.refs.pos p (by simp)
      have ref : ((FileSys.moved st p ip).inode (st.cwd p)).ref + _ = _ := moved_ref inv p _
      rw [unused, if_pos rfl] at ref
      have last : ((st.get ip).inode (st.cwd p)).ref = 1 := by
        rw [State.get_ref]
        omega
      rw [moved_inode, if_pos rfl, putInode, if_pos ⟨last, by simpa using unlinked⟩]
      exact ⟨rfl, by simpa using unlinked⟩
    others := by
      intro i stays
      rw [moved_inode]
      by_cases old : i = st.cwd p
      · rw [if_pos old, putInode]
        have held : ¬ (((st.get ip).inode i).ref = 1 ∧ ((st.get ip).inode i).nlink = 0) := by
          rintro ⟨last, unlinked⟩
          refine stays ⟨old, by simpa using unlinked, ?_⟩
          rw [moved_inode, if_pos old, putInode_ref, last]
        rw [if_neg held]
        exact ⟨State.get_type, State.get_nlink, State.get_entries⟩
      · rw [if_neg old]
        exact ⟨State.get_type, State.get_nlink, State.get_entries⟩ }
  unused := fun _ gone => gone.2.2
  kept := by
    intro i stays kept
    by_cases old : i = st.cwd p
    · by_contra none
      rw [not_or, not_not, not_not] at none
      exact stays ⟨old, none⟩
    · have ref : ((FileSys.moved st p ip).inode i).ref + _ = _ := moved_ref inv p i
      rw [if_neg old] at ref
      exact (inv.settled i kept).imp_right fun held => by omega
  blank := by
    intro i _ free
    have ref : ((FileSys.moved st p ip).inode i).ref + _ = _ := moved_ref inv p i
    have other : i ≠ ip := by
      rintro rfl
      exact allocated free
    obtain ⟨unlinked, unused⟩ := inv.blank i free
    rw [if_neg other] at ref
    exact ⟨unlinked, by omega⟩
  refs := by
    have ofile : (FileSys.moved st p ip).ofile = st.ofile := State.put_others.2
    have holds : (fun q => (FileSys.moved st p ip).cwd q ::
        ((FileSys.moved st p ip).ofile q).map OpenFile.ip) =
        Function.update (fun q => st.cwd q :: (st.ofile q).map OpenFile.ip) p
          (ip :: (st.ofile p).map OpenFile.ip) := by
      funext q
      rw [ofile]
      by_cases mine : q = p
      · subst q
        simp [FileSys.moved]
      · simp [FileSys.moved, mine]
    rw [holds]
    refine inv.refs.move fun i => ?_
    have ref : ((FileSys.moved st p ip).inode i).ref + _ = _ := moved_ref inv p i
    simp only [List.count_cons, beq_iff_eq]
    simp only [eq_comm (a := i)] at ref
    omega
  ofile := State.put_others.2

theorem Inv.sysChdir (inv : Inv st) (home : Home st) {p : Fin n} {arg : Bytes} {ret : Int}
    (result : FileSys.sysChdir st p arg = .ok (ret, after)) :
    after = st ∨ ∃ ip, IsDir st ip ∧ after = FileSys.moved st p ip ∧
      ∀ may, Closed st may → may ROOTINO → may (st.cwd p) → may ip := by
  rw [FileSys.sysChdir] at result
  split at result
  · simp only [Except.ok.injEq, Prod.mk.injEq] at result
    exact .inl result.2.symm
  · rename_i path whole
    obtain ⟨⟨walk, middle⟩, walked, rest⟩ := bind_ok result
    have clean := argstr_clean whole
    rcases inv.namex home clean walked with ⟨rfl, rfl⟩ | ⟨ip, name, rfl, rfl, may, -⟩
    · simp only [Except.ok.injEq, Prod.mk.injEq] at rest
      exact .inl rest.2.symm
    · obtain ⟨-, -, locked⟩ := bind_ok rest
      split at locked
      · simp only [Except.ok.injEq, Prod.mk.injEq,
          State.get_put (inv.settled ip may.1)] at locked
        exact .inl locked.2.symm
      · rename_i dir
        simp only [State.get_type, ne_eq, not_not] at dir
        simp only [Except.ok.injEq, Prod.mk.injEq] at locked
        refine .inr ⟨ip, dir, locked.2.symm, fun other closed root here => ?_⟩
        have start : other (if path.head? = some slash then ROOTINO else st.cwd p) := by
          split
          · exact root
          · exact here
        rcases namexLoop_closed closed start clean walked with ⟨none, -⟩ | ⟨i, last, same, -, inside, -⟩
        · cases none
        · obtain ⟨rfl, -⟩ := Prod.mk.inj (Option.some.inj same)
          exact inside

theorem Inv.sysMkdir (inv : Inv st) (home : Home st) {ninodes : ℕ} {p : Fin n} {arg : Bytes}
    {space : ℕ} {ret : Int} (result : FileSys.sysMkdir ninodes st p arg space = .ok (ret, after)) :
    Quiet st after ∨ ∃ dp name off ip, Rooted st dp ∧ after = link st dp name ip .dir ∧
      Links st after dp off ip name .dir := by
  rw [FileSys.sysMkdir] at result
  split at result
  · simp only [Except.ok.injEq, Prod.mk.injEq] at result
    exact .inl (result.2 ▸ inv.quiet)
  · rename_i path whole
    obtain ⟨⟨found, middle⟩, created, rest⟩ := bind_ok result
    rcases inv.create home (argstr_clean whole) (by simp) created with
      ⟨rfl, quiet⟩ | ⟨ip, rfl, ⟨file, -⟩ | ⟨dp, name, off, rooted, rfl, links⟩⟩
    · simp only [Except.ok.injEq, Prod.mk.injEq] at rest
      exact .inl (rest.2 ▸ quiet)
    · cases file
    · have kept : ((link st dp name ip .dir).inode ip).nlink ≠ 0 := by
        rw [links.new.2.1]
        simp
      simp only [Except.ok.injEq, Prod.mk.injEq, State.get_put (.inl kept)] at rest
      exact .inr ⟨dp, name, off, ip, rooted, rest.2.symm, rest.2 ▸ links⟩

theorem opens_get {p : Fin n} {trunc writable slot : Bool} {ret : Int}
    (kept : (st.inode ip).nlink ≠ 0 ∨ (st.inode ip).ref ≠ 0)
    (result : ((if slot = false then .ok (-1, (st.get ip).put ip)
      else
        let f : OpenFile := { ip := ip, off := 0, writable := writable }
        let st :=
          if trunc = true ∧ ((st.get ip).inode ip).type = .file then
            (st.get ip).setInode ip { (st.get ip).inode ip with data := [] }
          else st.get ip
        .ok ((st.ofile p).length,
          { st with ofile := Function.update st.ofile p (st.ofile p ++ [f]) })) :
      Except Fault (Int × State n)) = .ok (ret, after)) :
    after = st ∨ Opens st after p ip := by
  split at result
  · simp only [Except.ok.injEq, Prod.mk.injEq, State.get_put kept] at result
    exact .inl result.2.symm
  · simp only [Except.ok.injEq, Prod.mk.injEq] at result
    obtain ⟨-, rfl⟩ := result
    right
    split
    · have inode : ∀ i, ((st.get ip).setInode ip
          { (st.get ip).inode ip with data := [] }).inode i =
          { (st.get ip).inode i with
            data := if i = ip then [] else ((st.get ip).inode i).data } := by
        intro i
        by_cases same : i = ip
        · subst i
          simp [State.setInode]
        · simp only [State.setInode, Function.update_of_ne same, if_neg same]
      exact {
        same := fun i => by
          rw [inode]
          exact ⟨State.get_type, State.get_nlink, State.get_entries⟩
        ref := fun i => by
          rw [inode]
          exact State.get_ref
        cwd := rfl
        ofile := ⟨_, rfl, rfl⟩ }
    · exact {
        same := fun _ => ⟨State.get_type, State.get_nlink, State.get_entries⟩
        ref := fun _ => State.get_ref
        cwd := rfl
        ofile := ⟨_, rfl, rfl⟩ }

theorem Inv.sysOpen (inv : Inv st) (home : Home st) {ninodes : ℕ} {p : Fin n} {arg : Bytes}
    {trunc writable slot : Bool} {space : ℕ} {ret : Int}
    (result : FileSys.sysOpen ninodes st p arg trunc writable slot space = .ok (ret, after)) :
    Quiet st after ∨ ∃ middle ip, (after = middle ∨ Opens middle after p ip) ∧
      ((middle = st ∧ (st.inode ip).type ≠ .free ∧ (st.inode ip).type ≠ .dir) ∨
        ∃ dp name off, Rooted st dp ∧ middle = link st dp name ip .file ∧
          Links st middle dp off ip name .file) := by
  rw [FileSys.sysOpen] at result
  split at result
  · simp only [Except.ok.injEq, Prod.mk.injEq] at result
    exact .inl (result.2 ▸ inv.quiet)
  · rename_i path whole
    obtain ⟨⟨found, middle⟩, created, rest⟩ := bind_ok result
    rcases inv.create home (argstr_clean whole) (by simp) created with
      ⟨rfl, quiet⟩ | ⟨ip, rfl, ⟨-, rfl, allocated, other⟩ | ⟨dp, name, off, rooted, rfl, links⟩⟩
    · simp only [Except.ok.injEq, Prod.mk.injEq] at rest
      exact .inl (rest.2 ▸ quiet)
    · exact .inr ⟨st, ip, opens_get (inv.settled ip allocated) rest, .inl ⟨rfl, allocated, other⟩⟩
    · have kept : ((link st dp name ip .file).inode ip).nlink ≠ 0 := by
        rw [links.new.2.1]
        simp
      exact .inr ⟨_, ip, opens_get (.inl kept) rest, .inr ⟨dp, name, off, rooted, rfl, links⟩⟩

theorem Inv.written (inv : Inv st) {p : Fin n} {fd : ℕ} {f : OpenFile} (data : Bytes) (off : ℕ)
    (opened : (st.ofile p)[fd]? = some f) :
    Quiet st { st.setInode f.ip { st.inode f.ip with data := data } with
      ofile := Function.update st.ofile p ((st.ofile p).set fd { f with off := off }) } := by
  have inode : ∀ i, (st.setInode f.ip { st.inode f.ip with data := data }).inode i =
      { st.inode i with data := if i = f.ip then data else (st.inode i).data } := by
    intro i
    by_cases same : i = f.ip
    · subst i
      simp [State.setInode]
    · simp [State.setInode, same]
  exact {
    frees := {
      unlinked := fun i free => (inv.blank i free).1
      freed := by
        intro i free
        rw [inode]
        exact ⟨free, (inv.blank i free).1⟩
      others := by
        intro i _
        rw [inode]
        exact ⟨rfl, rfl, rfl⟩ }
    ref := by
      intro i
      rw [inode]
    cwd := rfl
    ofile := by
      intro q
      by_cases mine : q = p
      · subst q
        refine List.ext_getElem? fun k => ?_
        simp only [Function.update_self, List.getElem?_map, List.getElem?_set]
        by_cases here : fd = k
        · subst k
          obtain ⟨inside, same⟩ := List.getElem?_eq_some_iff.mp opened
          simp [inside, same]
        · rw [if_neg here]
      · simp [mine] }

theorem Inv.sysWrite (inv : Inv st) {p : Fin n} {fd : ℕ} {bytes : Bytes} {whole : Bool} {ret : Int}
    (result : FileSys.sysWrite st p fd bytes whole = .ok (ret, after)) : Quiet st after := by
  rw [FileSys.sysWrite] at result
  cases opened : (st.ofile p)[fd]? with
  | none =>
      simp only [opened, Except.ok.injEq, Prod.mk.injEq] at result
      exact result.2 ▸ inv.quiet
  | some f =>
      simp only [opened] at result
      by_cases closed : f.writable = false
      · simp only [if_pos closed, Except.ok.injEq, Prod.mk.injEq] at result
        exact result.2 ▸ inv.quiet
      · rw [if_neg closed] at result
        by_cases device : (st.inode f.ip).type = .device
        · simp only [if_pos device, Except.ok.injEq, Prod.mk.injEq] at result
          exact result.2 ▸ inv.quiet
        · rw [if_neg device] at result
          obtain ⟨-, -, rest⟩ := bind_ok result
          by_cases past : f.off > (st.inode f.ip).data.length
          · simp only [if_pos past, Except.ok.injEq, Prod.mk.injEq] at rest
            exact rest.2 ▸ inv.quiet
          · simp only [if_neg past, Except.ok.injEq, Prod.mk.injEq] at rest
            obtain ⟨-, rfl⟩ := rest
            exact inv.written _ _ opened

theorem Evolves.comp {middle : State n}
    (first : ∀ d, IsDir st d → IsDir middle d ∧ parent middle d = parent st d)
    (second : Evolves middle after) : Evolves st after := by
  intro d dir
  obtain ⟨still, same⟩ := first d dir
  rw [← same]
  exact second d still

theorem unlinked_files (inv : Inv st) (unlinks : Unlinks st (unlinked st dp off ip) dp off ip)
    (p : Fin n) (i : ℕ) (opened : i ∈ ((unlinked st dp off ip).ofile p).map OpenFile.ip) :
    ((unlinked st dp off ip).inode i).type ≠ .free ∧
      ((unlinked st dp off ip).inode i).type ≠ .dir := by
  rw [unlinks.types]
  exact inv.files p i opened

/-- What every completed call keeps: the invariant, the directories that it does not free, and the
current directories, but for the one that `chdir` replaces. -/
theorem Inv.step (inv : Inv st) (home : Home st) {ninodes : ℕ} {p : Fin n} {call : Call}
    (taken : FileSys.step ninodes st (p, call) = some after) :
    Inv after ∧ Evolves st after ∧ (after.cwd = st.cwd ∨ ∃ ip, IsDir st ip ∧
      after = FileSys.moved st p ip ∧
      ∀ may, Closed st may → may ROOTINO → may (st.cwd p) → may ip) := by
  rw [FileSys.step] at taken
  cases ran : FileSys.call ninodes st p call with
  | error fault => simp [ran] at taken
  | ok result =>
      obtain ⟨ret, st'⟩ := result
      simp only [ran, Option.some.injEq] at taken
      subst st'
      have quietly : ∀ {moves : Prop}, Quiet st after →
          Inv after ∧ Evolves st after ∧ (after.cwd = st.cwd ∨ moves) :=
        fun quiet => ⟨quiet.inv inv, quiet.frees.evolves, .inl quiet.cwd⟩
      cases call with
      | mkdir arg space =>
          rcases inv.sysMkdir home ran with quiet | ⟨dp, name, off, ip, -, rfl, links⟩
          · exact quietly quiet
          · exact ⟨inv.linked links, links.evolves inv.sane, .inl rfl⟩
      | openCreate arg trunc writable slot space =>
          rcases inv.sysOpen home ran with quiet | ⟨middle, ip, opens, made⟩
          · exact quietly quiet
          · have known : Inv middle ∧ (middle.inode ip).type ≠ .free ∧
                (middle.inode ip).type ≠ .dir ∧ middle.cwd = st.cwd ∧
                ∀ d, IsDir st d → IsDir middle d ∧ parent middle d = parent st d := by
              rcases made with ⟨rfl, allocated, other⟩ | ⟨dp, name, off, -, rfl, links⟩
              · exact ⟨inv, allocated, other, rfl, fun _ dir => ⟨dir, rfl⟩⟩
              · refine ⟨inv.linked links, ?_, ?_, rfl, fun d dir =>
                  ⟨links.still dir, links.parent_eq inv.sane dir⟩⟩
                · simp [links.new.1]
                · simp [links.new.1]
            obtain ⟨between, allocated, other, cwd, dirs⟩ := known
            rcases opens with rfl | opens
            · exact ⟨between, .comp dirs between.quiet.frees.evolves, .inl cwd⟩
            · exact ⟨opens.inv between ⟨allocated, other⟩,
                .comp dirs (Frees.none opens.same).evolves, .inl (opens.cwd.trans cwd)⟩
      | write fd bytes whole => exact quietly (inv.sysWrite ran)
      | unlink arg =>
          rcases inv.sysUnlink home ran with rfl | ⟨dp, off, ip, gone, unlinks, settles, cwd⟩
          · exact quietly inv.quiet
          · refine ⟨settles.inv (unlinks.sane inv.sane) (unlinked_files inv unlinks), ?_, .inl cwd⟩
            exact .comp (fun d dir => ⟨unlinks.isDir.mpr dir, unlinks.parent_eq inv.sane dir⟩)
              settles.frees.evolves
      | chdir arg =>
          rcases inv.sysChdir home ran with rfl | ⟨ip, dir, rfl, closed⟩
          · exact quietly inv.quiet
          · have allocated : (st.inode ip).type ≠ .free := by
              rw [dir]
              simp
            have settles := inv.moved p allocated
            exact ⟨settles.inv inv.sane inv.files, settles.frees.evolves,
              .inr ⟨ip, dir, rfl, closed⟩⟩

end OsLab.Kernel.FileSys
