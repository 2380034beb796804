import OsLab.Kernel.GetcwdPath

/-!
What the calls that make and remove names keep of the directories: the entries `.` and `..`, the
names and the counts of links.
-/

namespace OsLab.Kernel.FileSys

open OsLab.Library
open OsLab.Library.CString
open OsLab.Kernel.Fs (FileType)

variable {n : ℕ}

/-! ### One entry changed -/

/-- The entry at a position becomes another one, or a new one at the end. -/
structure Rewrites (before after : List Dirent) (off : ℕ) (de : Dirent) : Prop where
  inside : off ≤ before.length
  changed : ∀ k, after[k]? = if k = off then some de else before[k]?

namespace Rewrites

variable {before after : List Dirent} {off : ℕ} {de : Dirent}

theorem drop (rewrites : Rewrites before after off de) {k : ℕ} (later : k ≤ off) :
    Rewrites (before.drop k) (after.drop k) (off - k) de where
  inside := by
    have inside := rewrites.inside
    rw [List.length_drop]
    omega
  changed := by
    intro j
    rw [List.getElem?_drop, List.getElem?_drop, rewrites.changed]
    congr 1
    simp only [eq_iff_iff]
    omega

theorem set {l : List Dirent} (inside : off < l.length) : Rewrites l (l.set off de) off de where
  inside := inside.le
  changed := by
    intro k
    rw [List.getElem?_set]
    by_cases same : off = k
    · subst k
      simp [inside]
    · rw [if_neg same, if_neg (Ne.symm same)]

theorem append (l : List Dirent) : Rewrites l (l ++ [de]) l.length de where
  inside := le_refl _
  changed := by
    intro k
    by_cases last : k = l.length
    · subst k
      simp
    · rw [if_neg last]
      by_cases inside : k < l.length
      · exact List.getElem?_append_left inside
      · rw [List.getElem?_append_right (by omega), List.getElem?_eq_none (by simp; omega),
          List.getElem?_eq_none (by omega)]

theorem countP (rewrites : Rewrites before after off de) (p : Dirent → Bool) :
    after.countP p + (before[off]?.any p).toNat = before.countP p + (p de).toNat := by
  by_cases last : off = before.length
  · have whole : after = before ++ [de] := by
      refine List.ext_getElem? fun k => ?_
      rw [rewrites.changed, last, (append before).changed]
    rw [whole, last, List.countP_append, List.countP_singleton, List.getElem?_eq_none (le_refl _)]
    cases p de <;> simp
  · have inside : off < before.length := by
      have inside := rewrites.inside
      omega
    have whole : after = before.set off de := by
      refine List.ext_getElem? fun k => ?_
      rw [rewrites.changed, (set inside).changed]
    rw [whole, List.countP_set inside, List.getElem?_eq_getElem inside, Option.any_some]
    have some : p before[off] = true → 0 < before.countP p := by
      intro counted
      exact List.countP_pos_iff.mpr ⟨_, List.getElem_mem inside, counted⟩
    cases old : p before[off] with
    | false => cases p de <;> simp
    | true =>
        have positive := some old
        simp only [if_true, Bool.toNat_true]
        cases p de <;> simp <;> omega

theorem mem (rewrites : Rewrites before after off de) {other : Dirent} (member : other ∈ after) :
    other = de ∨ other ∈ before := by
  obtain ⟨k, here⟩ := List.mem_iff_getElem?.mp member
  rw [rewrites.changed] at here
  split at here
  · exact .inl (Option.some.inj here).symm
  · exact .inr (List.mem_iff_getElem?.mpr ⟨k, here⟩)

end Rewrites

theorem dirlink_rewrites (dp : Inode) (name : Bytes) (inum : ℕ) : ∃ off,
    Rewrites dp.entries (dirlink dp name inum).entries off (entry name inum) ∧
      ∀ de, dp.entries[off]? = some de → de.inum = 0 := by
  rw [dirlink]
  cases found : dp.entries.findIdx? fun de => de.inum = 0 with
  | none => exact ⟨_, .append _, by simp⟩
  | some off =>
      obtain ⟨inside, empty, -⟩ := List.findIdx?_eq_some_iff_getElem.mp found
      refine ⟨off, .set inside, ?_⟩
      intro de here
      rw [List.getElem?_eq_getElem inside, Option.some.injEq] at here
      subst here
      simpa using empty

/-! ### The naming of inodes -/

def Names (st : State n) (d off i : ℕ) : Prop :=
  IsDir st d ∧ 2 ≤ off ∧ i ≠ 0 ∧ ∃ de, (st.inode d).entries[off]? = some de ∧ de.inum = i

def subdirs (st : State n) (d : ℕ) : ℕ :=
  if (st.inode d).type = .dir then
    ((st.inode d).entries.drop 2).countP fun de => de.inum ≠ 0 ∧ (st.inode de.inum).type = .dir
  else 0

/-- The names in use and the counts of links agree. A directory may be without a name, or have a
parent that is gone. -/
structure Sane (st : State n) : Prop where
  zero : ¬ IsDir st 0
  root : IsDir st ROOTINO ∧ parent st ROOTINO = ROOTINO
  dots : ∀ d, IsDir st d → parent st d ≠ 0 ∧
    ∃ rest, (st.inode d).entries = entry dot d :: entry dotdot (parent st d) :: rest
  distinct : ∀ d, IsDir st d → ∀ (j k : ℕ) (de other : Dirent), (st.inode d).entries[j]? = some de →
    (st.inode d).entries[k]? = some other → de.inum ≠ 0 → other.inum ≠ 0 → de.text = other.text →
    j = k
  clean : ∀ d, IsDir st d → ∀ de ∈ (st.inode d).entries, de.inum ≠ 0 →
    de.text ≠ [] ∧ slash ∉ de.text
  named : ∀ d off i, Names st d off i →
    i ≠ ROOTINO ∧ (st.inode i).type ≠ .free ∧ (IsDir st i → parent st i = d)
  once : ∀ d off other place i, Names st d off i → Names st other place i → d = other ∧ off = place
  linked : ∀ d off i, Names st d off i → 1 + (subdirs st i : Int) ≤ (st.inode i).nlink
  counted : ∀ i, (subdirs st i : Int) ≤ (st.inode i).nlink
  rooted : 1 + (subdirs st ROOTINO : Int) ≤ (st.inode ROOTINO).nlink

variable {st after : State n} {d dp off i ip k : ℕ}

theorem namecmp_entry (name which : Bytes) (inum : ℕ) :
    namecmp name (entry which inum).name = 0 ↔ namecmp name which = 0 := by
  rw [namecmp_eq_zero, namecmp, strncmp_eq_zero, Dirent.text, entry, text_strncpy]

theorem child_dotdot {x up : ℕ} {rest : List Dirent} (dir : IsDir st d) (used : up ≠ 0)
    (dots : (st.inode d).entries = entry dot x :: entry dotdot up :: rest) :
    child st d dotdot = some up := by
  have first : namecmp dotdot dot ≠ 0 := by decide
  have second : namecmp dotdot dotdot = 0 := by decide
  rw [child_eq dir, dots, List.find?_cons_of_neg, List.find?_cons_of_pos]
  · rfl
  · simpa only [decide_eq_true_eq] using ⟨used, (namecmp_entry ..).mpr second⟩
  · simp only [decide_eq_true_eq, not_and]
    intro _ same
    exact first ((namecmp_entry ..).mp same)

theorem parent_dots {x up : ℕ} {rest : List Dirent} (dir : IsDir st d) (used : up ≠ 0)
    (dots : (st.inode d).entries = entry dot x :: entry dotdot up :: rest) : parent st d = up := by
  rw [parent, child_dotdot dir used dots]
  rfl

theorem subdirs_dir (dir : IsDir st d) : subdirs st d =
    ((st.inode d).entries.drop 2).countP fun de => de.inum ≠ 0 ∧ (st.inode de.inum).type = .dir :=
  if_pos dir

theorem subdirs_other (other : ¬ IsDir st d) : subdirs st d = 0 := if_neg other

theorem subdirs_pos (names : Names st d off i) (dir : IsDir st i) : 0 < subdirs st d := by
  obtain ⟨above, later, used, de, here, rfl⟩ := names
  rw [subdirs_dir above]
  refine List.countP_pos_iff.mpr ⟨de, ?_, by simpa using ⟨used, dir⟩⟩
  refine List.mem_iff_getElem?.mpr ⟨off - 2, ?_⟩
  rw [List.getElem?_drop, Nat.add_sub_cancel' later]
  exact here

theorem names_of_mem (dir : IsDir st d) {de : Dirent} (member : de ∈ (st.inode d).entries.drop 2)
    (used : de.inum ≠ 0) : ∃ off, Names st d off de.inum := by
  obtain ⟨k, here⟩ := List.mem_iff_getElem?.mp member
  rw [List.getElem?_drop] at here
  exact ⟨2 + k, dir, by omega, used, de, here, rfl⟩

/-- The count of a directory with the same entries, where the inodes named there are of the same
kind as before. -/
theorem subdirs_congr (dir : IsDir st d) (still : IsDir after d)
    (entries : (after.inode d).entries = (st.inode d).entries)
    (kinds : ∀ off i, Names st d off i → (IsDir after i ↔ IsDir st i)) :
    subdirs after d = subdirs st d := by
  rw [subdirs_dir dir, subdirs_dir still, entries]
  refine List.countP_congr fun de member => ?_
  simp only [decide_eq_true_eq]
  refine and_congr_right fun used => ?_
  obtain ⟨off, names⟩ := names_of_mem dir member used
  exact kinds off _ names

theorem subdirs_rewrites {de : Dirent} (dir : IsDir st d) (still : IsDir after d) (later : 2 ≤ off)
    (rewrites : Rewrites (st.inode d).entries (after.inode d).entries off de)
    (kinds : ∀ off i, Names st d off i → (IsDir after i ↔ IsDir st i)) :
    subdirs after d + (((st.inode d).entries[off]?).any fun old =>
        old.inum ≠ 0 ∧ (st.inode old.inum).type = .dir).toNat =
      subdirs st d + (decide (de.inum ≠ 0 ∧ (after.inode de.inum).type = .dir)).toNat := by
  have counts := (rewrites.drop later).countP fun de =>
    de.inum ≠ 0 ∧ (after.inode de.inum).type = .dir
  have same : ((st.inode d).entries.drop 2).countP (fun de =>
      de.inum ≠ 0 ∧ (after.inode de.inum).type = .dir) = subdirs st d := by
    rw [subdirs_dir dir]
    refine List.countP_congr fun de member => ?_
    simp only [decide_eq_true_eq]
    refine and_congr_right fun used => ?_
    obtain ⟨off, names⟩ := names_of_mem dir member used
    exact kinds off _ names
  rw [List.getElem?_drop, Nat.add_sub_cancel' later, same, ← subdirs_dir still] at counts
  have old : (((st.inode d).entries[off]?).any fun old =>
      old.inum ≠ 0 ∧ (after.inode old.inum).type = .dir) =
      (((st.inode d).entries[off]?).any fun old =>
        old.inum ≠ 0 ∧ (st.inode old.inum).type = .dir) := by
    cases here : (st.inode d).entries[off]? with
    | none => rfl
    | some old =>
        simp only [Option.any_some, decide_eq_decide]
        exact and_congr_right fun used => kinds off _ ⟨dir, later, used, old, here, rfl⟩
  rw [old] at counts
  exact counts

namespace Sane

variable (sane : Sane st)
include sane

theorem child_parent (dir : IsDir st d) : child st d dotdot = some (parent st d) := by
  obtain ⟨used, rest, dots⟩ := sane.dots d dir
  exact child_dotdot dir used dots

theorem dirlookup_cases (dir : IsDir st d) {name : Bytes}
    (looked : dirlookup (st.inode d) name = .ok (some (i, off))) :
    (namecmp name dot = 0 ∧ i = d) ∨ (namecmp name dotdot = 0 ∧ i = parent st d) ∨
      Names st d off i := by
  obtain ⟨used, rest, dots⟩ := sane.dots d dir
  rw [dirlookup, if_neg fun other => other dir] at looked
  simp only [Except.ok.injEq, Option.map_eq_some_iff, Prod.mk.injEq] at looked
  obtain ⟨⟨de, place⟩, found, rfl, rfl⟩ := looked
  have here := List.mem_zipIdx_iff_getElem?.mp (List.mem_of_find?_eq_some found)
  have matched := List.find?_some found
  simp only [decide_eq_true_eq] at here matched
  rcases place with - | - | place
  · left
    simp only [dots, List.getElem?_cons_zero, Option.some.injEq] at here
    subst here
    exact ⟨(namecmp_entry ..).mp matched.2, rfl⟩
  · right
    left
    simp only [dots, List.getElem?_cons_succ, List.getElem?_cons_zero, Option.some.injEq] at here
    subst here
    exact ⟨(namecmp_entry ..).mp matched.2, rfl⟩
  · right
    right
    exact ⟨dir, by omega, matched.1, de, here, rfl⟩

theorem named_nlink (names : Names st d off i) : (st.inode i).nlink ≠ 0 := by
  have linked := sane.linked d off i names
  omega

end Sane

def Evolves (st after : State n) : Prop :=
  ∀ d, IsDir st d → (after.inode d).type = .free ∨ (IsDir after d ∧ parent after d = parent st d)

theorem parent_congr (dir : IsDir st d) (still : IsDir after d)
    (entries : (after.inode d).entries = (st.inode d).entries) : parent after d = parent st d := by
  rw [parent, parent, child_eq dir, child_eq still, entries]

theorem Rewrites.dots {before after : List Dirent} {a b de : Dirent} {rest : List Dirent}
    (rewrites : Rewrites before after off de) (later : 2 ≤ off) (dots : before = a :: b :: rest) :
    ∃ rest, after = a :: b :: rest := by
  have first := rewrites.changed 0
  have second := rewrites.changed 1
  rw [if_neg (by omega), dots] at first second
  match after with
  | [] => simp at first
  | [x] => simp at second
  | x :: y :: rest =>
      simp only [List.getElem?_cons_zero, Option.some.injEq] at first
      simp only [List.getElem?_cons_succ, List.getElem?_cons_zero, Option.some.injEq] at second
      exact ⟨rest, by rw [first, second]⟩

/-! ### A new name -/

structure Links (st after : State n) (dp off ip : ℕ) (name : Bytes) (type : FileType) : Prop where
  dir : IsDir st dp
  fresh : (st.inode ip).type = .free
  number : ip ≠ 0
  later : 2 ≤ off
  empty : ∀ de, (st.inode dp).entries[off]? = some de → de.inum = 0
  rewrites : Rewrites (st.inode dp).entries (after.inode dp).entries off (entry name ip)
  above : IsDir after dp
  nlink : (after.inode dp).nlink = (st.inode dp).nlink + if type = .dir then 1 else 0
  new : (after.inode ip).type = type ∧ (after.inode ip).nlink = 1 ∧
    (after.inode ip).entries = if type = .dir then [entry dot ip, entry dotdot dp] else []
  allocated : type ≠ .free
  others : ∀ i, i ≠ dp → i ≠ ip → (after.inode i).type = (st.inode i).type ∧
    (after.inode i).nlink = (st.inode i).nlink ∧ (after.inode i).entries = (st.inode i).entries
  plain : Plain name
  clean : ∀ c ∈ name, c ≠ 0
  absent : ∀ de ∈ (st.inode dp).entries, de.inum ≠ 0 → de.text ≠ name

namespace Links

variable {name : Bytes} {type : FileType} (links : Links st after dp off ip name type)
include links

theorem apart : ip ≠ dp := by
  rintro rfl
  have dir : (st.inode ip).type = .dir := links.dir
  simp [links.fresh] at dir

theorem isDir : IsDir after d ↔ IsDir st d ∨ (d = ip ∧ type = .dir) := by
  by_cases new : d = ip
  · subst d
    simp [IsDir, links.new.1, links.fresh]
  · by_cases up : d = dp
    · subst d
      simp [links.above, links.dir]
    · simp [IsDir, (links.others d up new).1, new]

theorem entries (dir : IsDir st d) (other : d ≠ dp) :
    (after.inode d).entries = (st.inode d).entries := by
  refine (links.others d other ?_).2.2
  rintro rfl
  rw [IsDir, links.fresh] at dir
  cases dir

theorem still (dir : IsDir st d) : IsDir after d := links.isDir.mpr (.inl dir)

theorem text_entry : (entry name ip).text = name := by
  rw [Dirent.text, entry, text_strncpy, List.take_of_length_le links.plain.short,
    text_eq_self links.clean]

theorem parent_eq (sane : Sane st) (dir : IsDir st d) : parent after d = parent st d := by
  by_cases up : d = dp
  · subst d
    obtain ⟨used, rest, dots⟩ := sane.dots dp dir
    obtain ⟨rest, dots⟩ := links.rewrites.dots links.later dots
    exact parent_dots links.above used dots
  · exact parent_congr dir (links.still dir) (links.entries dir up)

theorem evolves (sane : Sane st) : Evolves st after := fun _ dir =>
  .inr ⟨links.still dir, links.parent_eq sane dir⟩

theorem new_dots (sane : Sane st) (made : type = .dir) :
    parent after ip = dp ∧ (after.inode ip).entries = [entry dot ip, entry dotdot dp] := by
  have dots : (after.inode ip).entries = [entry dot ip, entry dotdot dp] := by
    rw [links.new.2.2, if_pos made]
  refine ⟨parent_dots (links.isDir.mpr (.inr ⟨rfl, made⟩)) ?_ dots, dots⟩
  rintro rfl
  exact sane.zero links.dir

theorem names : Names after d k i ↔ Names st d k i ∨ (d = dp ∧ k = off ∧ i = ip) := by
  constructor
  · rintro ⟨dir, later, used, de, here, rfl⟩
    rcases links.isDir.mp dir with old | ⟨rfl, made⟩
    · by_cases up : d = dp
      · subst d
        rw [links.rewrites.changed] at here
        split at here
        · rename_i same
          obtain rfl := Option.some.inj here
          exact .inr ⟨rfl, same, rfl⟩
        · exact .inl ⟨old, later, used, de, here, rfl⟩
      · rw [links.entries old up] at here
        exact .inl ⟨old, later, used, de, here, rfl⟩
    · rw [links.new.2.2, if_pos made, List.getElem?_eq_none (by simpa using later)] at here
      cases here
  · rintro (⟨dir, later, used, de, here, rfl⟩ | ⟨rfl, rfl, rfl⟩)
    · refine ⟨links.still dir, later, used, de, ?_, rfl⟩
      by_cases up : d = dp
      · subst d
        have other : k ≠ off := by
          rintro rfl
          exact used (links.empty de here)
        rw [links.rewrites.changed, if_neg other, here]
      · rw [links.entries dir up, here]
    · refine ⟨links.above, links.later, links.number, entry name _, ?_, rfl⟩
      rw [links.rewrites.changed, if_pos rfl]

theorem unnamed (sane : Sane st) : ¬ Names st d k ip := fun names =>
  (sane.named d k ip names).2.1 links.fresh

theorem kinds (sane : Sane st) (names : Names st d k i) : IsDir after i ↔ IsDir st i := by
  rw [links.isDir]
  refine or_iff_left ?_
  rintro ⟨rfl, -⟩
  exact links.unnamed sane names

theorem subdirs (sane : Sane st) : subdirs after i =
    if i = dp then subdirs st dp + (if type = .dir then 1 else 0)
    else if i = ip then 0 else subdirs st i := by
  by_cases up : i = dp
  · subst i
    have counts := subdirs_rewrites links.dir links.above links.later links.rewrites
      fun _ _ => links.kinds sane
    have old : (((st.inode dp).entries[off]?).any fun old =>
        old.inum ≠ 0 ∧ (st.inode old.inum).type = .dir) = false := by
      cases here : (st.inode dp).entries[off]? with
      | none => rfl
      | some de => simp [links.empty de here]
    rw [old] at counts
    simp only [Bool.toNat_false, Nat.add_zero, entry, links.number, links.new.1, ne_eq,
      not_false_eq_true, true_and] at counts
    rw [if_pos rfl, counts]
    by_cases made : type = .dir <;> simp [made]
  · rw [if_neg up]
    by_cases new : i = ip
    · subst i
      rw [if_pos rfl, FileSys.subdirs]
      split
      · rename_i made
        rw [links.new.2.2, if_pos (links.new.1.symm.trans made)]
        rfl
      · rfl
    · rw [if_neg new]
      by_cases dir : IsDir st i
      · exact subdirs_congr dir (links.still dir) (links.entries dir up) fun _ _ => links.kinds sane
      · have other : ¬ IsDir after i := by
          rw [links.isDir]
          simp [dir, new]
        rw [subdirs_other dir, subdirs_other other]

theorem nlink_eq : (after.inode i).nlink =
    if i = dp then (st.inode dp).nlink + (if type = .dir then 1 else 0)
    else if i = ip then 1 else (st.inode i).nlink := by
  by_cases up : i = dp
  · subst i
    rw [if_pos rfl, links.nlink]
  · rw [if_neg up]
    by_cases new : i = ip
    · subst i
      rw [if_pos rfl, links.new.2.1]
    · rw [if_neg new, (links.others i up new).2.1]

theorem allocated_after (allocated : (st.inode i).type ≠ .free) : (after.inode i).type ≠ .free := by
  by_cases up : i = dp
  · subst i
    have above : (after.inode dp).type = .dir := links.above
    simp [above]
  · by_cases new : i = ip
    · subst i
      rw [links.new.1]
      exact links.allocated
    · rwa [(links.others i up new).1]

theorem distinct (sane : Sane st) (dir : IsDir after d) {j k : ℕ} {de other : Dirent}
    (first : (after.inode d).entries[j]? = some de)
    (second : (after.inode d).entries[k]? = some other) (used : de.inum ≠ 0)
    (some : other.inum ≠ 0) (same : de.text = other.text) : j = k := by
  rcases links.isDir.mp dir with old | ⟨rfl, made⟩
  · by_cases up : d = dp
    · subst d
      rw [links.rewrites.changed] at first second
      split at first
      · rename_i new
        split at second
        · rename_i newer
          exact new.trans newer.symm
        · obtain rfl := Option.some.inj first
          exact absurd (same.symm.trans links.text_entry)
            (links.absent other (List.mem_of_getElem? second) some)
      · split at second
        · obtain rfl := Option.some.inj second
          exact absurd (same.trans links.text_entry)
            (links.absent de (List.mem_of_getElem? first) used)
        · exact sane.distinct _ old _ _ _ _ first second used some same
    · rw [links.entries old up] at first second
      exact sane.distinct _ old _ _ _ _ first second used some same
  · rw [links.new.2.2, if_pos made] at first second
    have texts : ∀ x y, (entry dot x).text ≠ (entry dotdot y).text := by
      intro x y
      simp only [Dirent.text, entry]
      decide
    rcases j with - | - | j <;> rcases k with - | - | k <;>
      simp only [List.getElem?_cons_zero, List.getElem?_cons_succ, List.getElem?_nil,
        Option.some.injEq, reduceCtorEq] at first second
    · rfl
    · subst first second
      exact absurd same (texts _ _)
    · subst first second
      exact absurd same.symm (texts _ _)
    · rfl

theorem clean_after (sane : Sane st) (dir : IsDir after d) {de : Dirent}
    (member : de ∈ (after.inode d).entries) (used : de.inum ≠ 0) :
    de.text ≠ [] ∧ slash ∉ de.text := by
  rcases links.isDir.mp dir with old | ⟨rfl, made⟩
  · by_cases up : d = dp
    · subst d
      rcases links.rewrites.mem member with rfl | before
      · rw [links.text_entry]
        exact ⟨links.plain.nonempty, links.plain.clean⟩
      · exact sane.clean _ old de before used
    · rw [links.entries old up] at member
      exact sane.clean _ old de member used
  · rw [links.new.2.2, if_pos made] at member
    have texts : ∀ x, ((entry dot x).text ≠ [] ∧ slash ∉ (entry dot x).text) ∧
        (entry dotdot x).text ≠ [] ∧ slash ∉ (entry dotdot x).text := by
      intro x
      simp only [Dirent.text, entry]
      decide
    rcases List.mem_cons.mp member with rfl | second
    · exact (texts _).1
    · rw [List.mem_singleton.mp second]
      exact (texts _).2

theorem sane (sane : Sane st) : Sane after where
  zero := by
    rw [links.isDir]
    rintro (old | ⟨new, -⟩)
    · exact sane.zero old
    · exact links.number new.symm
  root := by
    refine ⟨links.still sane.root.1, ?_⟩
    rw [links.parent_eq sane sane.root.1]
    exact sane.root.2
  dots := by
    intro d dir
    rcases links.isDir.mp dir with old | ⟨rfl, made⟩
    · rw [links.parent_eq sane old]
      obtain ⟨used, rest, dots⟩ := sane.dots d old
      refine ⟨used, ?_⟩
      by_cases up : d = dp
      · subst d
        exact links.rewrites.dots links.later dots
      · exact ⟨rest, by rw [links.entries old up, dots]⟩
    · obtain ⟨up, dots⟩ := links.new_dots sane made
      rw [up]
      refine ⟨?_, [], dots⟩
      rintro rfl
      exact sane.zero links.dir
  distinct := fun _ dir _ _ _ _ => links.distinct sane dir
  clean := fun _ dir _ => links.clean_after sane dir
  named := by
    intro d k i names
    rcases links.names.mp names with old | ⟨rfl, rfl, rfl⟩
    · obtain ⟨low, allocated, up⟩ := sane.named d k i old
      refine ⟨low, links.allocated_after allocated, fun dir => ?_⟩
      have before := (links.kinds sane old).mp dir
      rw [links.parent_eq sane before, up before]
    · refine ⟨?_, ?_, fun dir => ?_⟩
      · rintro rfl
        have root : (st.inode ROOTINO).type = .dir := sane.root.1
        simp [links.fresh] at root
      · rw [links.new.1]
        exact links.allocated
      · exact (links.new_dots sane (links.new.1.symm.trans dir)).1
  once := by
    intro d k other place i first second
    rcases links.names.mp first with old | ⟨rfl, rfl, rfl⟩
    · rcases links.names.mp second with older | ⟨rfl, rfl, rfl⟩
      · exact sane.once _ _ _ _ _ old older
      · exact absurd old (links.unnamed sane)
    · rcases links.names.mp second with older | ⟨rfl, rfl, -⟩
      · exact absurd older (links.unnamed sane)
      · exact ⟨rfl, rfl⟩
  linked := by
    intro d k i names
    have counted := sane.counted i
    rw [links.subdirs sane, links.nlink_eq]
    have old : i ≠ ip → 1 + (FileSys.subdirs st i : Int) ≤ (st.inode i).nlink := by
      intro other
      rcases links.names.mp names with old | ⟨-, -, new⟩
      · exact sane.linked d k i old
      · exact absurd new other
    by_cases up : i = dp
    · subst i
      have more := old links.apart.symm
      simp only [↓reduceIte]
      split <;> push_cast <;> omega
    · by_cases new : i = ip
      · subst i
        simp [up]
      · simpa [up, new] using old new
  counted := by
    intro i
    have counted := sane.counted i
    rw [links.subdirs sane, links.nlink_eq]
    by_cases up : i = dp
    · subst i
      simp only [↓reduceIte]
      split <;> push_cast <;> omega
    · by_cases new : i = ip
      · subst i
        simp [up]
      · simpa [up, new] using counted
  rooted := by
    have rooted := sane.rooted
    rw [links.subdirs sane, links.nlink_eq]
    have other : ROOTINO ≠ ip := by
      rintro rfl
      have root : (st.inode ROOTINO).type = .dir := sane.root.1
      simp [links.fresh] at root
    by_cases up : ROOTINO = dp
    · subst up
      simp only [↓reduceIte]
      split <;> push_cast <;> omega
    · simpa [up, other] using rooted

end Links

/-! ### A name removed -/

structure Unlinks (st after : State n) (dp off ip : ℕ) : Prop where
  names : Names st dp off ip
  rewrites : Rewrites (st.inode dp).entries (after.inode dp).entries off unused
  others : ∀ i, i ≠ dp → (after.inode i).entries = (st.inode i).entries
  types : ∀ i, (after.inode i).type = (st.inode i).type
  nlink : ∀ i, (after.inode i).nlink + (if i = ip then 1 else 0) +
    (if i = dp ∧ (st.inode ip).type = .dir then 1 else 0) = (st.inode i).nlink

namespace Unlinks

variable (unlinks : Unlinks st after dp off ip)
include unlinks

theorem isDir : IsDir after d ↔ IsDir st d := by
  rw [IsDir, IsDir, unlinks.types]

theorem parent_eq (sane : Sane st) (dir : IsDir st d) : parent after d = parent st d := by
  by_cases up : d = dp
  · subst d
    obtain ⟨used, rest, dots⟩ := sane.dots dp dir
    obtain ⟨rest, dots⟩ := unlinks.rewrites.dots unlinks.names.2.1 dots
    exact parent_dots (unlinks.isDir.mpr dir) used dots
  · exact parent_congr dir (unlinks.isDir.mpr dir) (unlinks.others d up)

theorem entry_before {de : Dirent} (here : (after.inode d).entries[k]? = some de)
    (used : de.inum ≠ 0) : (st.inode d).entries[k]? = some de ∧ ¬ (d = dp ∧ k = off) := by
  by_cases up : d = dp
  · subst d
    rw [unlinks.rewrites.changed] at here
    split at here
    · obtain rfl := Option.some.inj here
      exact absurd rfl used
    · rename_i other
      exact ⟨here, fun both => other both.2⟩
  · rw [unlinks.others d up] at here
    exact ⟨here, fun both => up both.1⟩

theorem names_iff : Names after d k i ↔ Names st d k i ∧ ¬ (d = dp ∧ k = off) := by
  constructor
  · rintro ⟨dir, later, used, de, here, rfl⟩
    obtain ⟨before, other⟩ := unlinks.entry_before here used
    exact ⟨⟨unlinks.isDir.mp dir, later, used, de, before, rfl⟩, other⟩
  · rintro ⟨⟨dir, later, used, de, here, rfl⟩, other⟩
    refine ⟨unlinks.isDir.mpr dir, later, used, de, ?_, rfl⟩
    by_cases up : d = dp
    · subst d
      rw [unlinks.rewrites.changed, if_neg fun same => other ⟨rfl, same⟩, here]
    · rw [unlinks.others d up, here]

theorem subdirs : subdirs after i +
    (if i = dp ∧ (st.inode ip).type = .dir then 1 else 0) = subdirs st i := by
  by_cases up : i = dp
  · subst i
    obtain ⟨dir, later, used, de, here, named⟩ := unlinks.names
    have counts := subdirs_rewrites dir (unlinks.isDir.mpr dir) later unlinks.rewrites
      fun _ _ _ => unlinks.isDir
    have blank : unused.inum = 0 := rfl
    simp only [here, Option.any_some, named, used, ne_eq, not_false_eq_true, true_and, blank,
      not_true_eq_false, false_and, decide_false, Bool.toNat_false, Nat.add_zero] at counts
    rw [← counts]
    by_cases below : (st.inode ip).type = .dir <;> simp [below]
  · simp only [up, false_and, if_false, Nat.add_zero]
    by_cases dir : IsDir st i
    · exact subdirs_congr dir (unlinks.isDir.mpr dir) (unlinks.others i up)
        fun _ _ _ => unlinks.isDir
    · rw [subdirs_other dir, subdirs_other (mt unlinks.isDir.mp dir)]

theorem margin : (after.inode i).nlink - FileSys.subdirs after i + (if i = ip then 1 else 0) =
    (st.inode i).nlink - FileSys.subdirs st i := by
  have nlink := unlinks.nlink i
  have counts := unlinks.subdirs (i := i)
  by_cases counted : i = dp ∧ (st.inode ip).type = .dir
  · rw [if_pos counted] at nlink counts
    omega
  · rw [if_neg counted] at nlink counts
    omega

theorem sane (sane : Sane st) : Sane after where
  zero := mt unlinks.isDir.mp sane.zero
  root := by
    refine ⟨unlinks.isDir.mpr sane.root.1, ?_⟩
    rw [unlinks.parent_eq sane sane.root.1]
    exact sane.root.2
  dots := by
    intro d dir
    have before := unlinks.isDir.mp dir
    rw [unlinks.parent_eq sane before]
    obtain ⟨used, rest, dots⟩ := sane.dots d before
    refine ⟨used, ?_⟩
    by_cases up : d = dp
    · subst d
      exact unlinks.rewrites.dots unlinks.names.2.1 dots
    · exact ⟨rest, by rw [unlinks.others d up, dots]⟩
  distinct := by
    intro d dir j k de other first second used some same
    exact sane.distinct d (unlinks.isDir.mp dir) j k de other (unlinks.entry_before first used).1
      (unlinks.entry_before second some).1 used some same
  clean := by
    intro d dir de member used
    obtain ⟨k, here⟩ := List.mem_iff_getElem?.mp member
    have before := List.mem_of_getElem? (unlinks.entry_before here used).1
    exact sane.clean d (unlinks.isDir.mp dir) de before used
  named := by
    intro d k i names
    obtain ⟨low, allocated, up⟩ := sane.named d k i (unlinks.names_iff.mp names).1
    refine ⟨low, ?_, fun dir => ?_⟩
    · rwa [unlinks.types]
    · have before := unlinks.isDir.mp dir
      rw [unlinks.parent_eq sane before, up before]
  once := fun d k other place i first second =>
    sane.once d k other place i (unlinks.names_iff.mp first).1 (unlinks.names_iff.mp second).1
  linked := by
    intro d k i names
    obtain ⟨before, other⟩ := unlinks.names_iff.mp names
    have linked := sane.linked d k i before
    have margin := unlinks.margin (i := i)
    have another : i ≠ ip := by
      rintro rfl
      exact other (sane.once _ _ _ _ _ before unlinks.names)
    rw [if_neg another] at margin
    omega
  counted := by
    intro i
    have counted := sane.counted i
    have margin := unlinks.margin (i := i)
    by_cases same : i = ip
    · have linked := sane.linked dp off ip unlinks.names
      subst i
      rw [if_pos rfl] at margin
      omega
    · rw [if_neg same] at margin
      omega
  rooted := by
    have rooted := sane.rooted
    have margin := unlinks.margin (i := ROOTINO)
    rw [if_neg (sane.named dp off ip unlinks.names).1.symm] at margin
    omega

end Unlinks

/-! ### Inodes freed -/

structure Frees (st after : State n) (gone : ℕ → Prop) : Prop where
  unlinked : ∀ i, gone i → (st.inode i).nlink = 0
  freed : ∀ i, gone i → (after.inode i).type = .free ∧ (after.inode i).nlink = 0
  others : ∀ i, ¬ gone i → (after.inode i).type = (st.inode i).type ∧
    (after.inode i).nlink = (st.inode i).nlink ∧ (after.inode i).entries = (st.inode i).entries

namespace Frees

variable {gone : ℕ → Prop} (frees : Frees st after gone)
include frees

theorem isDir : IsDir after d ↔ IsDir st d ∧ ¬ gone d := by
  by_cases freed : gone d
  · simp [IsDir, (frees.freed d freed).1, freed]
  · simp [IsDir, (frees.others d freed).1, freed]

theorem parent_eq (dir : IsDir after d) : parent after d = parent st d := by
  obtain ⟨before, stays⟩ := frees.isDir.mp dir
  exact parent_congr before dir (frees.others d stays).2.2

theorem evolves : Evolves st after := by
  intro d dir
  by_cases freed : gone d
  · exact .inl (frees.freed d freed).1
  · have still := frees.isDir.mpr ⟨dir, freed⟩
    exact .inr ⟨still, frees.parent_eq still⟩

theorem names_iff : Names after d k i ↔ Names st d k i ∧ ¬ gone d := by
  constructor
  · rintro ⟨dir, later, used, de, here, rfl⟩
    obtain ⟨before, stays⟩ := frees.isDir.mp dir
    rw [(frees.others d stays).2.2] at here
    exact ⟨⟨before, later, used, de, here, rfl⟩, stays⟩
  · rintro ⟨⟨dir, later, used, de, here, rfl⟩, stays⟩
    refine ⟨frees.isDir.mpr ⟨dir, stays⟩, later, used, de, ?_, rfl⟩
    rw [(frees.others d stays).2.2, here]

theorem named_stays (sane : Sane st) (names : Names st d k i) : ¬ gone i := fun freed =>
  sane.named_nlink names (frees.unlinked i freed)

theorem subdirs (sane : Sane st) (stays : ¬ gone i) : subdirs after i = subdirs st i := by
  by_cases dir : IsDir st i
  · refine subdirs_congr dir (frees.isDir.mpr ⟨dir, stays⟩) (frees.others i stays).2.2 ?_
    intro k j names
    rw [frees.isDir]
    exact and_iff_left (frees.named_stays sane names)
  · rw [subdirs_other dir, subdirs_other fun still => dir (frees.isDir.mp still).1]

theorem sane (sane : Sane st) : Sane after := by
  have root : ¬ gone ROOTINO := by
    intro freed
    have rooted := sane.rooted
    have unlinked := frees.unlinked _ freed
    omega
  exact {
    zero := fun dir => sane.zero (frees.isDir.mp dir).1
    root := by
      have dir := frees.isDir.mpr ⟨sane.root.1, root⟩
      refine ⟨dir, ?_⟩
      rw [frees.parent_eq dir]
      exact sane.root.2
    dots := by
      intro d dir
      obtain ⟨before, stays⟩ := frees.isDir.mp dir
      rw [frees.parent_eq dir, (frees.others d stays).2.2]
      exact sane.dots d before
    distinct := by
      intro d dir
      obtain ⟨before, stays⟩ := frees.isDir.mp dir
      rw [(frees.others d stays).2.2]
      exact sane.distinct d before
    clean := by
      intro d dir
      obtain ⟨before, stays⟩ := frees.isDir.mp dir
      rw [(frees.others d stays).2.2]
      exact sane.clean d before
    named := by
      intro d k i names
      have before := (frees.names_iff.mp names).1
      have stays := frees.named_stays sane before
      obtain ⟨low, allocated, up⟩ := sane.named d k i before
      refine ⟨low, ?_, fun dir => ?_⟩
      · rwa [(frees.others i stays).1]
      · rw [frees.parent_eq dir]
        exact up (frees.isDir.mp dir).1
    once := fun d k other place i first second =>
      sane.once d k other place i (frees.names_iff.mp first).1 (frees.names_iff.mp second).1
    linked := by
      intro d k i names
      have before := (frees.names_iff.mp names).1
      have stays := frees.named_stays sane before
      rw [frees.subdirs sane stays, (frees.others i stays).2.1]
      exact sane.linked d k i before
    counted := by
      intro i
      by_cases freed : gone i
      · rw [subdirs_other fun dir => (frees.isDir.mp dir).2 freed, (frees.freed i freed).2]
        rfl
      · rw [frees.subdirs sane freed, (frees.others i freed).2.1]
        exact sane.counted i
    rooted := by
      rw [frees.subdirs sane root, (frees.others _ root).2.1]
      exact sane.rooted }

end Frees

end OsLab.Kernel.FileSys
