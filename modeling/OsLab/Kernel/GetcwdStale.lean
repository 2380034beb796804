import OsLab.Kernel.GetcwdDepth

/-!
`sys_getcwd` after any completed calls: the `..` entry of a directory may outlive the directory that
it names.
-/

namespace OsLab.Kernel.FileSys

open OsLab.Library
open OsLab.Library.CString

variable {n : ℕ} {st after : State n} {d i ip : ℕ}

/-- The call frees no inode that the `..` entries above a current directory name. -/
def Keeps (ninodes : ℕ) (st : State n) (label : Fin n × Call) : Prop :=
  ∀ after, step ninodes st label = some after →
    ∀ p k, (after.inode ((parent st)^[k + 1] (st.cwd p))).type ≠ .free

/-- No path from the root or from a directory without links leads to another directory that has it
among its parents. -/
theorem closed_avoiding (inv : Inv st) {y : ℕ} (below : Rooted st y)
    (unlinked : (st.inode y).nlink = 0) :
    Closed st fun i => May st i ∧ (IsDir st i → i = y ∨ ∀ k, (parent st)^[k] i ≠ y) where
  kept := fun i may => inv.settled i may.1.1
  next := by
    rintro d name i off ⟨may, avoids⟩ dir looked
    have next := inv.closed.next d name i off may dir looked
    have low : y ≠ ROOTINO := by
      rintro rfl
      have rooted := inv.sane.rooted
      omega
    refine ⟨next, fun below' => ?_⟩
    rcases inv.sane.dirlookup_cases dir looked with ⟨-, rfl⟩ | ⟨-, rfl⟩ | names
    · exact avoids dir
    · -- upwards
      right
      intro k
      rcases avoids dir with rfl | apart
      · obtain ⟨m, top⟩ := below.top
        exact Ancestry.iterate_ne inv.sane.root.2 top low (Nat.succ_pos k)
      · exact apart (k + 1)
    · -- downwards, where the name is that of a directory
      have up := (inv.sane.named d off i names).2.2 below'
      have linked := inv.sane.named_nlink names
      right
      intro k
      cases k with
      | zero =>
          rintro rfl
          exact linked unlinked
      | succ k =>
          rw [Function.iterate_succ_apply, up]
          rcases avoids dir with rfl | apart
          · have counted := inv.sane.counted d
            have positive := subdirs_pos names below'
            omega
          · exact apart k

/-- Where nothing above a current directory is freed, the current directories stay below the root. -/
theorem Home.step (home : Home st) (inv : Inv st) {ninodes : ℕ} {label : Fin n × Call}
    (keeps : Keeps ninodes st label) (taken : FileSys.step ninodes st label = some after) :
    Home after := by
  obtain ⟨p, call⟩ := label
  obtain ⟨still, evolves, cwd⟩ := inv.step home taken
  have kept := keeps after taken
  intro q
  rcases cwd with same | ⟨ip, dir, rfl, closed⟩
  · exact home.stay evolves still (congrFun same q) (kept q)
  · by_cases mine : q = p
    · subst q
      have target : (moved st p ip).cwd p = ip := by simp [moved]
      have may := closed _ inv.closed (Rooted.root inv.sane.root.1).may (home p).may
      have rooted := may.2 dir
      rw [target]
      refine rooted.evolve evolves fun k free => ?_
      have allocated : (st.inode ip).type ≠ .free := may.1
      have settles := inv.moved p allocated
      have above := (rooted.iterate inv.sane k).isDir
      -- only the directory left can be gone
      by_cases gone : (parent st)^[k] ip = st.cwd p ∧
          (st.inode ((parent st)^[k] ip)).nlink = 0 ∧
          ((moved st p ip).inode ((parent st)^[k] ip)).ref = 0
      · obtain ⟨old, unlinked, unused⟩ := gone
        rw [old] at unlinked
        have avoid := closed_avoiding inv (home p) unlinked
        have root : Rooted st ROOTINO := .root inv.sane.root.1
        have inside := closed _ avoid
          ⟨root.may, fun _ => .inr fun j same => ?_⟩ ⟨(home p).may, fun _ => .inl rfl⟩
        · rcases inside.2 dir with same | apart
          · have held := still.held_allocated (p := p) (i := ip) (by rw [target]; simp)
            have back : (parent st)^[k] ip = ip := old.trans same.symm
            rw [back] at free
            exact held free
          · exact apart k old
        · rw [Function.iterate_fixed inv.sane.root.2] at same
          have rooted := inv.sane.rooted
          rw [← same] at unlinked
          omega
      · rw [(settles.frees.others _ gone).1, above] at free
        cases free
    · have stays : (moved st p ip).cwd q = st.cwd q := by simp [moved, mine]
      exact home.stay evolves still stays (kept q)

theorem kept_home {ninodes : ℕ}
    (reachable : ((system n ninodes).restrict (Keeps ninodes)).Reachable st) : Inv st ∧ Home st := by
  have first : ∀ st : State n, Start st → Inv st ∧ Home st :=
    fun _ start => ⟨start.toInv, start.rooted⟩
  refine reachable.invariant first ?_
  intro before label after known taken
  exact ⟨(known.1.step known.2 taken.2).1, known.2.step known.1 taken.1 taken.2⟩

/-! ### The climb -/

theorem label_short (de : Dirent) : (text (de.name ++ [0])).length ≤ DIRSIZ := by
  rw [text_append_zero]
  exact de.text_length_le

theorem climb_rooted (inv : Inv st) (rooted : Rooted st d) (room : ℕ) {names : List Bytes}
    (short : ∀ row ∈ names, (text row).length ≤ DIRSIZ) :
    (∃ found, climb room d names (st.get d) = .ok (found, st) ∧ ∀ rows, found = some rows →
      rows.length ≤ room + names.length ∧ ∀ row ∈ rows, (text row).length ≤ DIRSIZ) ∨
    (climb room d names (st.get d) = .error .overflow ∧
      ∀ k ≤ room, (parent st)^[k] d ≠ ROOTINO) := by
  have kept : ∀ x, IsDir st x → (st.inode x).nlink ≠ 0 ∨ (st.inode x).ref ≠ 0 := by
    intro x dir
    apply inv.settled
    rw [dir]
    simp
  have here : ∀ (room : ℕ) (names : List Bytes), (∀ row ∈ names, (text row).length ≤ DIRSIZ) →
      ∀ rows, some names = some rows →
      rows.length ≤ room + names.length ∧ ∀ row ∈ rows, (text row).length ≤ DIRSIZ := by
    intro room names short rows same
    obtain rfl := Option.some.inj same
    exact ⟨Nat.le_add_left _ _, short⟩
  induction rooted generalizing room names with
  | root dir =>
      left
      have loop := inv.sane.root.2
      have down := inv.sane.child_parent dir
      have above : IsDir st (parent st ROOTINO) := loop.symm ▸ dir
      rw [climb_round dir down above kept, if_pos loop.symm]
      exact ⟨_, rfl, here room names short⟩
  | @under d dir above ih =>
      have round := climb_round dir (inv.sane.child_parent dir) above.isDir kept room names
      by_cases loop : d = parent st d
      · rw [if_pos loop] at round
        exact .inl ⟨_, round, here room names short⟩
      · rw [if_neg loop] at round
        cases found : (readDirents (st.inode (parent st d))).find? fun de =>
            de.inum ≠ 0 ∧ de.inum = d with
        | none =>
            simp only [found] at round
            exact .inl ⟨none, round, fun rows none => by cases none⟩
        | some de =>
            simp only [found] at round
            have low : d ≠ ROOTINO := by
              rintro rfl
              exact loop inv.sane.root.2.symm
            cases room with
            | zero =>
                refine .inr ⟨round, fun k less => ?_⟩
                rw [Nat.le_zero.mp less]
                exact low
            | succ room =>
                have longer : ∀ row ∈ (de.name ++ [0]) :: names, (text row).length ≤ DIRSIZ := by
                  intro row member
                  rcases List.mem_cons.mp member with rfl | old
                  · exact label_short de
                  · exact short row old
                rw [round]
                rcases ih room longer with ⟨rows, ended, bounds⟩ | ⟨overflow, deep⟩
                · refine .inl ⟨rows, ended, fun found same => ?_⟩
                  obtain ⟨few, texts⟩ := bounds found same
                  rw [List.length_cons] at few
                  exact ⟨by omega, texts⟩
                · refine .inr ⟨overflow, fun k less => ?_⟩
                  cases k with
                  | zero => exact low
                  | succ k => exact deep k (by omega)

/-- In a run that frees no inode named by a `..` entry above a current directory, `sys_getcwd` never
panics, and it returns where the current directory is at most 32 levels below the root. -/
theorem getcwd_never_panics {ninodes : ℕ}
    (reachable : ((system n ninodes).restrict (Keeps ninodes)).Reachable st) (p : Fin n) (buf : ℕ)
    (size : Int) (pages : TargetPages) (mem : ℕ → UInt8) :
    (∀ panic, sysGetcwd st p buf size pages mem ≠ .error (.panic panic)) ∧
      ((∃ k ≤ MAXDEPTH, (parent st)^[k] (st.cwd p) = ROOTINO) →
        ∃ ret written, sysGetcwd st p buf size pages mem = .ok (ret, written, st)) := by
  obtain ⟨inv, home⟩ := kept_home reachable
  have none : ∀ row ∈ ([] : List Bytes), (text row).length ≤ DIRSIZ := by simp
  rcases climb_rooted inv (home p) MAXDEPTH none with ⟨found, climbed, bounds⟩ | ⟨overflow, deep⟩
  · have returns : ∃ ret written, sysGetcwd st p buf size pages mem = .ok (ret, written, st) := by
      cases found with
      | none => exact ⟨minusOne, mem, by rw [sysGetcwd, climbed]; rfl⟩
      | some rows =>
          obtain ⟨few, short⟩ := bounds rows rfl
          exact sysGetcwd_returns p climbed (buildPath_ok short few) buf size pages mem
    refine ⟨fun panic failed => ?_, fun _ => returns⟩
    obtain ⟨ret, written, result⟩ := returns
    rw [result] at failed
    cases failed
  · constructor
    · intro panic failed
      rw [sysGetcwd, overflow] at failed
      cases failed
    · rintro ⟨k, less, top⟩
      exact absurd top (deep k less)

/-- The root is the parent of every current directory, and a call leaves it there. -/
def keepsRoot (ninodes : ℕ) (st : State n) (label : Fin n × Call) : Bool :=
  decide (parent st ROOTINO = ROOTINO ∧ ∀ p, parent st (st.cwd p) = ROOTINO) &&
    (step ninodes st label).all fun after => decide ((after.inode ROOTINO).type ≠ .free)

theorem keeps_of_keepsRoot {ninodes : ℕ} {label : Fin n × Call}
    (passed : keepsRoot ninodes st label = true) : Keeps ninodes st label := by
  rw [keepsRoot, Bool.and_eq_true, decide_eq_true_eq] at passed
  obtain ⟨⟨root, up⟩, stays⟩ := passed
  intro after taken p k
  rw [Function.iterate_succ_apply, up p, Function.iterate_fixed root]
  simpa [taken] using stays

/-- One process makes a directory and moves there; the other removes it. -/
def removeOne : List (Fin 2 × Call) :=
  [(0, .mkdir [97] 3), (0, .chdir [97]), (1, .unlink [97])]

theorem getcwd_never_panics_removed : ∃ st, ((system 2 200).restrict (Keeps 200)).Reachable st ∧
    (st.inode (st.cwd 0)).nlink = 0 ∧ ∀ panic,
      sysGetcwd st 0 4096 512 (fun _ => some true) (fun _ => 0) ≠ .error (.panic panic) := by
  have sound : ∀ before label after,
      System.guard (fun st label => keepsRoot 200 st label) (step 200) before label = some after →
      ((system 2 200).restrict (Keeps 200)).step before label after := by
    intro before label after guarded
    obtain ⟨passed, taken⟩ := @System.guard_sound _ _ (system 2 200) _ _ _
      (fun _ _ _ taken => taken) before label after guarded
    exact ⟨keeps_of_keepsRoot passed, taken⟩
  have ran : (System.execute (System.guard (fun st label => keepsRoot 200 st label) (step 200))
      (mkfs 2) removeOne).map (fun st => (st.inode (st.cwd 0)).nlink) = some 0 := by
    decide +kernel
  obtain ⟨st, run, unlinked⟩ := System.Run.existsOfExecute sound ran
  have reachable := run.reachable (.start mkfs_start)
  exact ⟨st, reachable, unlinked,
    (getcwd_never_panics reachable 0 4096 512 (fun _ => some true) fun _ => 0).1⟩

/-! ### Stale parents -/

/-- One process makes `/a/b` and moves there; the other removes both directories. -/
def removeBoth : List (Fin 2 × Call) :=
  [(0, .mkdir [47, 97] 3), (0, .mkdir [47, 97, 47, 98] 3), (0, .chdir [47, 97, 47, 98]),
    (1, .unlink [47, 97, 47, 98]), (1, .unlink [47, 97])]

/-- The number of `/a` goes to a file `f`, with an entry for the first process's directory in it. -/
def reuse : List (Fin 2 × Call) :=
  [(1, .openCreate [102] false true true 1),
    (1, .write 0 [3, 0, 98, 0, 0, 0, 0, 0, 0, 0, 0, 0, 0, 0, 0, 0] true)]

def panics (st : State 2) : Option Panic :=
  match climb MAXDEPTH (st.cwd 0) [] (st.get (st.cwd 0)) with
  | .error (.panic panic) => some panic
  | _ => none

theorem panics_sysGetcwd {st : State 2} {panic : Panic} (found : panics st = some panic) (buf : ℕ)
    (size : Int) (pages : TargetPages) (mem : ℕ → UInt8) :
    sysGetcwd st 0 buf size pages mem = .error (.panic panic) := by
  rw [panics] at found
  split at found
  · rename_i failed
    obtain rfl := Option.some.inj found
    rw [sysGetcwd, failed]
    rfl
  · cases found

theorem panics_reached {panic : Panic} {labels : List (Fin 2 × Call)}
    (ran : (System.execute (step 200) (mkfs 2) labels).map panics = some (some panic)) :
    ∃ st, (system 2 200).Reachable st ∧ ∀ buf size pages mem,
      sysGetcwd st 0 buf size pages mem = .error (.panic panic) := by
  have sound : ∀ before label after, step 200 before label = some after →
      (system 2 200).step before label after := fun _ _ _ taken => taken
  have start : (system 2 200).Reachable (mkfs 2) := .start mkfs_start
  obtain ⟨st, run, found⟩ := System.Run.existsOfExecute sound ran
  exact ⟨st, run.reachable start, panics_sysGetcwd found⟩

/-- Both panics are reached: the parent is free, or it is a file by then. -/
theorem stale_parent_panics :
    (∃ st, (system 2 200).Reachable st ∧ ∀ buf size pages mem,
      sysGetcwd st 0 buf size pages mem = .error (.panic .noType)) ∧
    ∃ st, (system 2 200).Reachable st ∧ ∀ buf size pages mem,
      sysGetcwd st 0 buf size pages mem = .error (.panic .dirlookup) := by
  have first : (System.execute (step 200) (mkfs 2) removeBoth).map panics =
      some (some .noType) := by
    decide +kernel
  have second : (System.execute (step 200) (mkfs 2) (removeBoth ++ reuse)).map panics =
      some (some .dirlookup) := by
    decide +kernel
  exact ⟨panics_reached first, panics_reached second⟩

end OsLab.Kernel.FileSys
