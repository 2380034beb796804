import OsLab.Kernel.FileCalls
import OsLab.Library.System

/-!
How deep a directory `sys_getcwd` can name, in the directory trees that `sys_mkdir` and `sys_chdir`
build.
-/

namespace OsLab.Kernel.FileSys

open OsLab.Library
open OsLab.Library.CString
open OsLab.Kernel.Fs (FileType)

variable {n : ℕ} {st after : State n} {d dp off i ip : ℕ}

/-- Every directory lies below the root and has a name in its parent. -/
def Attached (st : State n) : Prop :=
  ∀ d, IsDir st d → Rooted st d ∧ (d = ROOTINO ∨ ∃ off, Names st (parent st d) off d)

/-- A file system whose directories form a tree, with every process in one of them. -/
structure Start (st : State n) : Prop extends Inv st where
  attached : Attached st
  home : ∀ p, IsDir st (st.cwd p)

/-- The calls of all processes on a disk with `ninodes` inodes, one after the other. -/
def system (n ninodes : ℕ) : System (State n) (Fin n × Call) where
  init := Start
  step before label after := step ninodes before label = some after

def Call.descends : Call → Bool
  | .mkdir .. | .chdir .. => true
  | _ => false

/-- The steps of `sys_mkdir` and `sys_chdir` alone. -/
def descents (n ninodes : ℕ) : System (State n) (Fin n × Call) :=
  (system n ninodes).restrict fun _ label => label.2.descends = true

theorem Start.rooted (start : Start st) : Home st := fun p => (start.attached _ (start.home p)).1

namespace Attached

variable (attached : Attached st)
include attached

theorem nlink (sane : Sane st) (dir : IsDir st d) : (st.inode d).nlink ≠ 0 := by
  rcases (attached d dir).2 with rfl | ⟨off, names⟩
  · have rooted := sane.rooted
    omega
  · exact sane.named_nlink names

theorem frees (sane : Sane st) {gone : ℕ → Prop} (frees : Frees st after gone)
    (kept : ∀ i, gone i → ¬ IsDir st i) : Attached after := by
  intro d dir
  have before := (frees.isDir.mp dir).1
  obtain ⟨rooted, named⟩ := attached d before
  constructor
  · refine rooted.evolve frees.evolves fun k => ?_
    have above := (rooted.iterate sane k).isDir
    rw [(frees.others _ fun freed => kept _ freed above).1, above]
    simp
  · refine named.imp_right ?_
    rintro ⟨off, names⟩
    rw [frees.parent_eq dir]
    exact ⟨off, frees.names_iff.mpr ⟨names, fun freed => kept _ freed (rooted.up sane).isDir⟩⟩

theorem links (sane : Sane st) {name : Bytes} {type : FileType}
    (links : Links st after dp off ip name type) : Attached after := by
  have old : ∀ d, IsDir st d → Rooted after d := by
    intro d dir
    obtain ⟨rooted, -⟩ := attached d dir
    refine rooted.evolve (links.evolves sane) fun k => ?_
    rw [links.still (rooted.iterate sane k).isDir]
    simp
  intro d dir
  rcases links.isDir.mp dir with before | ⟨rfl, made⟩
  · refine ⟨old d before, (attached d before).2.imp_right ?_⟩
    rintro ⟨k, names⟩
    rw [links.parent_eq sane before]
    exact ⟨k, links.names.mpr (.inl names)⟩
  · have up := (links.new_dots sane made).1
    refine ⟨.under dir ?_, .inr ⟨off, ?_⟩⟩
    · rw [up]
      exact old dp links.dir
    · rw [up]
      exact links.names.mpr (.inr ⟨rfl, rfl, rfl⟩)

end Attached

theorem Start.step (start : Start st) {ninodes : ℕ} {label : Fin n × Call}
    (descends : label.2.descends = true)
    (taken : FileSys.step ninodes st label = some after) : Start after := by
  obtain ⟨p, call⟩ := label
  have home := start.rooted
  have inv := (start.toInv.step home taken).1
  rw [FileSys.step] at taken
  cases ran : FileSys.call ninodes st p call with
  | error fault => simp [ran] at taken
  | ok result =>
      obtain ⟨ret, st'⟩ := result
      simp only [ran, Option.some.injEq] at taken
      subst st'
      have quietly : Quiet st after → Start after := by
        intro quiet
        have kept : ∀ i, (st.inode i).type = .free → ¬ IsDir st i := by
          intro i free dir
          rw [IsDir, free] at dir
          cases dir
        refine ⟨inv, start.attached.frees start.sane quiet.frees kept, fun q => ?_⟩
        rw [quiet.cwd]
        exact quiet.isDir.mpr (start.home q)
      cases call with
      | mkdir arg space =>
          rcases start.toInv.sysMkdir home ran with quiet | ⟨dp, name, off, ip, -, rfl, links⟩
          · exact quietly quiet
          · exact ⟨inv, start.attached.links start.sane links, fun q => links.still (start.home q)⟩
      | chdir arg =>
          rcases start.toInv.sysChdir home ran with rfl | ⟨ip, dir, rfl, -⟩
          · exact start
          · have allocated : (st.inode ip).type ≠ .free := by
              rw [dir]
              simp
            have settles := start.toInv.moved p allocated
            -- the directory left has a name
            have stays : ∀ i, i = st.cwd p ∧ (st.inode i).nlink = 0 ∧
                ((moved st p ip).inode i).ref = 0 → ¬ IsDir st i := by
              rintro i ⟨-, unlinked, -⟩ dir
              exact start.attached.nlink start.sane dir unlinked
            refine ⟨inv, start.attached.frees start.sane settles.frees stays, fun q => ?_⟩
            have target : IsDir st ((moved st p ip).cwd q) := by
              by_cases mine : q = p
              · subst q
                simpa [moved] using dir
              · simpa [moved, mine] using start.home q
            exact settles.frees.isDir.mpr ⟨target, fun freed => stays _ freed target⟩
      | openCreate arg trunc writable slot space => cases descends
      | write fd bytes whole => cases descends
      | unlink arg => cases descends

theorem descents_start {ninodes : ℕ} (reachable : (descents n ninodes).Reachable st) : Start st := by
  refine reachable.invariant (fun _ start => start) ?_
  intro before label after start taken
  exact start.step taken.1 taken.2

/-! ### The tree -/

theorem countP_eq_one {l : List Dirent} {p : Dirent → Bool} {de : Dirent} (blank : Dirent)
    (here : l[off]? = some de) (counts : p de = true) (none : p blank = false)
    (alone : ∀ k x, l[k]? = some x → p x = true → k = off) : l.countP p = 1 := by
  have inside := (List.getElem?_eq_some_iff.mp here).1
  have rewrites : Rewrites l (l.set off blank) off blank := .set inside
  have change := rewrites.countP p
  have rest : (l.set off blank).countP p = 0 := by
    rw [List.countP_eq_zero]
    intro x member
    obtain ⟨k, found⟩ := List.mem_iff_getElem?.mp member
    rw [rewrites.changed] at found
    split at found
    · obtain rfl := Option.some.inj found
      simp [none]
    · rename_i other
      intro counted
      exact other (alone k x found counted)
  rw [rest, here, Option.any_some, counts, none] at change
  simpa using change.symm

theorem Sane.text_named (sane : Sane st) (dir : IsDir st d) {k : ℕ} (later : 2 ≤ k) {de : Dirent}
    (here : (st.inode d).entries[k]? = some de) (used : de.inum ≠ 0) :
    de.text ≠ dot ∧ de.text ≠ dotdot := by
  obtain ⟨up, rest, dots⟩ := sane.dots d dir
  have nonzero : d ≠ 0 := fun zero => sane.zero (zero ▸ dir)
  have texts : (entry dot d).text = dot ∧ (entry dotdot (parent st d)).text = dotdot := by
    simp only [Dirent.text, entry]
    decide
  constructor
  · intro same
    have first := sane.distinct d dir k 0 de (entry dot d) here (by rw [dots]; rfl) used nonzero
      (same.trans texts.1.symm)
    omega
  · intro same
    have second := sane.distinct d dir k 1 de (entry dotdot (parent st d)) here (by rw [dots]; rfl)
      used up (same.trans texts.2.symm)
    omega

theorem Start.tree (start : Start st) : Tree st where
  zero := start.sane.zero
  root := start.sane.root
  up := fun d dir => ⟨start.sane.child_parent dir,
    ((start.attached d dir).1.up start.sane).isDir⟩
  named := by
    intro d dir below
    have nonzero : d ≠ 0 := fun zero => start.sane.zero (zero ▸ dir)
    obtain ⟨off, names⟩ := (start.attached d dir).2.resolve_left below
    obtain ⟨above, later, -, de, here, rfl⟩ := id names
    refine countP_eq_one unused here ?_ ?_ ?_
    · simpa using start.sane.text_named above later here nonzero
    · exact decide_eq_false fun both => nonzero both.1.symm
    · intro k other found counts
      simp only [decide_eq_true_eq] at counts
      obtain ⟨same, first, second⟩ := counts
      have behind : 2 ≤ k := by
        obtain ⟨-, rest, dots⟩ := start.sane.dots _ above
        by_contra early
        rw [dots] at found
        rcases (by omega : k = 0 ∨ k = 1) with rfl | rfl
        · obtain rfl := Option.some.inj found
          exact first (by simp only [Dirent.text, entry]; decide)
        · obtain rfl := Option.some.inj found
          exact second (by simp only [Dirent.text, entry]; decide)
      exact (start.sane.once _ k _ off _ ⟨above, behind, nonzero, other, found, same⟩ names).2
  distinct := by
    intro d dir
    rw [List.pairwise_filter, List.pairwise_iff_getElem]
    intro j k first second less used some same
    have equal := start.sane.distinct d dir j k _ _ (List.getElem?_eq_getElem first)
      (List.getElem?_eq_getElem second) (by simpa using used) (by simpa using some) same
    omega
  clean := start.sane.clean
  linked := fun _ dir => start.attached.nlink start.sane dir

/-! ### The depth -/

theorem climb_row (tree : Tree st) (dir : IsDir st d) (below : d ≠ ROOTINO) (apart : d ≠ parent st d)
    (room : ℕ) (names : List Bytes) : ∃ row, climb room d names (st.get d) =
      match room with
      | 0 => .error .overflow
      | room + 1 => climb room (parent st d) (row :: names) (st.get (parent st d)) := by
  obtain ⟨down, above⟩ := tree.up d dir
  obtain ⟨de, found, -⟩ := tree.scan dir below
  refine ⟨de.name ++ [0], ?_⟩
  rw [climb_round dir down above fun x dir => .inl (tree.linked x dir), if_neg apart]
  simp only [found]
  cases room <;> rfl

theorem climb_deep (tree : Tree st) (rooted : Rooted st d) {room : ℕ}
    (deep : ∀ k ≤ room, (parent st)^[k] d ≠ ROOTINO) (names : List Bytes) :
    climb room d names (st.get d) = .error .overflow := by
  induction room generalizing d names with
  | zero =>
      have below : d ≠ ROOTINO := deep 0 (le_refl 0)
      obtain ⟨row, round⟩ := climb_row tree rooted.isDir below
        (fun loop => below (rooted.fixed loop.symm)) 0 names
      exact round
  | succ room ih =>
      have below : d ≠ ROOTINO := deep 0 (Nat.zero_le _)
      obtain ⟨row, round⟩ := climb_row tree rooted.isDir below
        (fun loop => below (rooted.fixed loop.symm)) (room + 1) names
      have up : Rooted st (parent st d) := by
        cases rooted with
        | root _ => exact absurd rfl below
        | under _ above => exact above
      exact round.trans (ih up (fun k less => deep (k + 1) (by omega)) _)

theorem sysGetcwd_returns (p : Fin n) {rows : List Bytes} {kbuf : Bytes}
    (climbed : climb MAXDEPTH (st.cwd p) [] (st.get (st.cwd p)) = .ok (some rows, st))
    (built : buildPath rows = .ok kbuf) (buf : ℕ) (size : Int) (pages : TargetPages)
    (mem : ℕ → UInt8) :
    ∃ ret written, sysGetcwd st p buf size pages mem = .ok (ret, written, st) := by
  simp only [sysGetcwd, climbed, built, ok_bind]
  split
  · exact ⟨_, _, rfl⟩
  · split
    · exact ⟨_, _, rfl⟩
    · exact ⟨_, _, rfl⟩

/-- `sys_getcwd` returns without a write outside its arrays, and -1 where no path of 32 names leads to
the directory. -/
def StaysInside (st : State n) (p : Fin n) (buf : ℕ) (size : Int) (pages : TargetPages)
    (mem : ℕ → UInt8) : Prop :=
  ∃ ret written after, sysGetcwd st p buf size pages mem = .ok (ret, written, after) ∧
    ((∀ k ≤ MAXDEPTH, (parent st)^[k] (st.cwd p) ≠ ROOTINO) → ret = minusOne)

/-- In the trees that `sys_mkdir` and `sys_chdir` build, `sys_getcwd` stays inside its arrays exactly
where the current directory is at most 32 levels below the root. -/
theorem getcwd_in_bounds_iff {ninodes : ℕ} (reachable : (descents n ninodes).Reachable st) (p : Fin n)
    (buf : ℕ) (size : Int) (pages : TargetPages) (mem : ℕ → UInt8) :
    StaysInside st p buf size pages mem ↔
      ∃ k ≤ MAXDEPTH, (parent st)^[k] (st.cwd p) = ROOTINO := by
  have start := descents_start reachable
  have tree := start.tree
  constructor
  · rintro ⟨ret, written, after, result, -⟩
    by_contra deep
    rw [sysGetcwd, climb_deep tree (start.rooted p) fun k less top => deep ⟨k, less, top⟩] at result
    cases result
  · rintro ⟨depth, shallow, top⟩
    have root : ∃ k, (parent st)^[k] (st.cwd p) = ROOTINO := ⟨depth, top⟩
    obtain ⟨rows, climbed, built⟩ := tree.path_built (start.home p)
      ((Nat.find_min' root top).trans shallow) (Nat.find_spec root)
      fun j less => Nat.find_min root less
    obtain ⟨ret, written, result⟩ := sysGetcwd_returns p climbed built buf size pages mem
    exact ⟨ret, written, st, result, fun deep => absurd top (deep depth shallow)⟩

/-! ### The disk that `mkfs` writes -/

def mkfs (n : ℕ) : State n where
  inode i :=
    if i = ROOTINO then
      { type := .dir, nlink := 1, entries := [entry dot ROOTINO, entry dotdot ROOTINO], data := [],
        ref := n }
    else { type := .free, nlink := 0, entries := [], data := [], ref := 0 }
  cwd := fun _ => ROOTINO
  ofile := fun _ => []

theorem mkfs_dir : IsDir (mkfs n) d ↔ d = ROOTINO := by
  by_cases root : d = ROOTINO
  · simp [IsDir, mkfs, root]
  · simp [IsDir, mkfs, root]

theorem mkfs_entries : ((mkfs n).inode ROOTINO).entries =
    [entry dot ROOTINO, entry dotdot ROOTINO] := rfl

theorem mkfs_parent : parent (mkfs n) ROOTINO = ROOTINO :=
  parent_dots (mkfs_dir.mpr rfl) (by decide) mkfs_entries

theorem mkfs_names {k : ℕ} : ¬ Names (mkfs n) d k i := by
  rintro ⟨dir, later, -, de, here, -⟩
  rw [mkfs_dir.mp dir, mkfs_entries, List.getElem?_eq_none (by simpa using later)] at here
  cases here

theorem mkfs_subdirs : subdirs (mkfs n) ROOTINO = 0 := by
  rw [subdirs_dir (mkfs_dir.mpr rfl), mkfs_entries]
  rfl

theorem mkfs_sane : Sane (mkfs n) where
  zero := by
    rw [mkfs_dir]
    decide
  root := ⟨mkfs_dir.mpr rfl, mkfs_parent⟩
  dots := by
    intro d dir
    obtain rfl := mkfs_dir.mp dir
    rw [mkfs_parent]
    exact ⟨by decide, [], mkfs_entries⟩
  distinct := by
    intro d dir j k de other first second _ _ same
    obtain rfl := mkfs_dir.mp dir
    rw [mkfs_entries] at first second
    have apart : (entry dot ROOTINO).text ≠ (entry dotdot ROOTINO).text := by decide
    rcases j with - | - | j <;> rcases k with - | - | k <;>
      simp only [List.getElem?_cons_zero, List.getElem?_cons_succ, List.getElem?_nil,
        Option.some.injEq, reduceCtorEq] at first second
    · rfl
    · subst first second
      exact absurd same apart
    · subst first second
      exact absurd same.symm apart
    · rfl
  clean := by
    intro d dir
    obtain rfl := mkfs_dir.mp dir
    rw [mkfs_entries]
    decide
  named := fun _ _ _ names => absurd names mkfs_names
  once := fun _ _ _ _ _ names => absurd names mkfs_names
  linked := fun _ _ _ names => absurd names mkfs_names
  counted := by
    intro i
    by_cases root : i = ROOTINO
    · subst i
      rw [mkfs_subdirs]
      simp [mkfs]
    · rw [subdirs_other (mt mkfs_dir.mp root), mkfs]
      simp [root]
  rooted := by
    rw [mkfs_subdirs]
    simp [mkfs]

theorem mkfs_start : Start (mkfs n) where
  sane := mkfs_sane
  blank := by
    intro i free
    by_cases root : i = ROOTINO
    · simp [mkfs, root] at free
    · simp [mkfs, root]
  settled := by
    intro i kept
    by_cases root : i = ROOTINO
    · subst i
      left
      simp [mkfs]
    · simp [mkfs, root] at kept
  refs := by
    intro i
    by_cases root : i = ROOTINO
    · subst i
      simp [mkfs]
    · simp [mkfs, root, Ne.symm root]
  files := by
    intro p i opened
    simp [mkfs] at opened
  attached := by
    intro d dir
    obtain rfl := mkfs_dir.mp dir
    exact ⟨.root dir, .inl rfl⟩
  home := fun _ => mkfs_dir.mpr rfl

def descend : ℕ → List (Fin 1 × Call)
  | 0 => []
  | k + 1 => (0, .mkdir [100] 3) :: (0, .chdir [100]) :: descend k

theorem sound_descents (before : State 1) (label : Fin 1 × Call) (after : State 1)
    (taken : System.guard (fun _ label => label.2.descends = true) (step 200) before label =
      some after) : (descents 1 200).step before label after :=
  @System.guard_sound _ _ (system 1 200) _ _ _ (fun _ _ _ taken => taken) before label after taken

/-- In the 32nd directory the rows of `components` are just enough. -/
theorem getcwd_in_bounds_descended : ∃ st, (descents 1 200).Reachable st ∧
    (parent st)^[31] (st.cwd 0) ≠ ROOTINO ∧
      StaysInside st 0 4096 512 (fun _ => some true) (fun _ => 0) := by
  have ran : (System.execute (System.guard (fun _ label => label.2.descends = true) (step 200))
      (mkfs 1) (descend 32)).map (fun st =>
        decide ((parent st)^[31] (st.cwd 0) ≠ ROOTINO ∧ (parent st)^[32] (st.cwd 0) = ROOTINO)) =
      some true := by
    decide +kernel
  obtain ⟨st, run, found⟩ := System.Run.existsOfExecute sound_descents ran
  obtain ⟨below, top⟩ := of_decide_eq_true found
  have reachable := run.reachable (.start mkfs_start)
  exact ⟨st, reachable, below,
    (getcwd_in_bounds_iff reachable 0 4096 512 _ _).mpr ⟨32, le_refl 32, top⟩⟩

/-- In the 33rd directory the climb writes behind the last row of `components`. -/
theorem deep_directory_overflows : ∃ st, (descents 1 200).Reachable st ∧
    ∀ buf size pages mem, sysGetcwd st 0 buf size pages mem = .error .overflow := by
  have ran : (System.execute (System.guard (fun _ label => label.2.descends = true) (step 200))
      (mkfs 1) (descend 33)).map (fun st =>
        match climb MAXDEPTH (st.cwd 0) [] (st.get (st.cwd 0)) with
        | .error .overflow => true
        | _ => false) = some true := by
    decide +kernel
  obtain ⟨st, run, deep⟩ := System.Run.existsOfExecute sound_descents ran
  refine ⟨st, run.reachable (.start mkfs_start), fun buf size pages mem => ?_⟩
  split at deep
  · rename_i overflow
    rw [sysGetcwd, overflow]
    rfl
  · cases deep

end OsLab.Kernel.FileSys
