import Mathlib.Data.List.DropRight
import OsLab.Kernel.Copy
import OsLab.Kernel.FileSys
import OsLab.Library.Ancestry

/-!
`sys_getcwd` of `syscall.c` run alone, with its two arrays, and the path that it writes.
-/

namespace OsLab.Kernel.FileSys

open OsLab.Library
open OsLab.Library.CString

/-- The rows of `components`. -/
def MAXDEPTH : ℕ := 32

def KBUF : ℕ := 512

def minusOne : ℕ := 2 ^ 64 - 1

variable {n : ℕ}

/-- The climb with `room` rows of `components` left; `names` are the rows filled so far, the topmost
first. -/
def climb (room cur : ℕ) (names : List Bytes) (st : State n) :
    Except Fault (Option (List Bytes) × State n) := do
  st.ilock cur
  match ← dirlookup (st.inode cur) dotdot with
  | none => .ok (none, st.put cur)
  | some (parent, _) =>
      let st := st.get parent
      st.ilock parent
      if cur = parent then .ok (some names, (st.put parent).put cur)
      else
        match (readDirents (st.inode parent)).find? fun de => de.inum ≠ 0 ∧ de.inum = cur with
        | none => .ok (none, (st.put parent).put cur)
        | some de =>
            match room with
            | 0 => .error .overflow
            | room + 1 => climb room parent ((de.name ++ [0]) :: names) (st.put cur)

def append (kbuf bytes : Bytes) : Except Fault Bytes :=
  if kbuf.length + bytes.length ≤ KBUF then .ok (kbuf ++ bytes) else .error .overflow

/-- The loop over `components` in reverse, with the NUL after it. -/
def joinNames (kbuf : Bytes) : List Bytes → Except Fault Bytes
  | [] => append kbuf [0]
  | name :: rest => do
      let slashed ← append kbuf [slash]
      let named ← append slashed (name.take (strlen name))
      joinNames named rest

def buildPath (names : List Bytes) : Except Fault Bytes :=
  if names = [] then .ok [slash, 0] else joinNames [] names

/-- The result, the user's memory and the inodes. -/
def sysGetcwd (st : State n) (p : Fin n) (buf : ℕ) (size : Int) (pages : TargetPages)
    (mem : ℕ → UInt8) : Except Fault (ℕ × (ℕ → UInt8) × State n) := do
  match ← climb MAXDEPTH (st.cwd p) [] (st.get (st.cwd p)) with
  | (none, st) => .ok (minusOne, mem, st)
  | (some names, st) =>
      let kbuf ← buildPath names
      if (kbuf.length : Int) > size then .ok (minusOne, mem, st)
      else
        match copyout pages mem kbuf.get 0 buf kbuf.length with
        | (mem, false) => .ok (minusOne, mem, st)
        | (mem, true) => .ok (buf, mem, st)

/-! ### Directory trees -/

def child (st : State n) (d : ℕ) (name : Bytes) : Option ℕ :=
  match dirlookup (st.inode d) name with
  | .ok (some (i, _)) => some i
  | _ => none

def parent (st : State n) (d : ℕ) : ℕ := (child st d dotdot).getD 0

def IsDir (st : State n) (d : ℕ) : Prop := (st.inode d).type = .dir

structure Tree (st : State n) : Prop where
  zero : ¬ IsDir st 0
  root : IsDir st ROOTINO ∧ parent st ROOTINO = ROOTINO
  up : ∀ d, IsDir st d → child st d dotdot = some (parent st d) ∧ IsDir st (parent st d)
  named : ∀ d, IsDir st d → d ≠ ROOTINO → (st.inode (parent st d)).entries.countP (fun de =>
    de.inum = d ∧ de.text ≠ dot ∧ de.text ≠ dotdot) = 1
  distinct : ∀ d, IsDir st d → ((st.inode d).entries.filter fun de => de.inum ≠ 0).Pairwise
    fun first second => first.text ≠ second.text
  clean : ∀ d, IsDir st d → ∀ de ∈ (st.inode d).entries, de.inum ≠ 0 →
    de.text ≠ [] ∧ slash ∉ de.text
  linked : ∀ d, IsDir st d → (st.inode d).nlink ≠ 0

/-! ### Names in a directory -/

theorem Dirent.text_length_le (de : Dirent) : de.text.length ≤ DIRSIZ :=
  (CString.text_length_le de.name).trans_eq de.width

theorem namecmp_eq_zero {name : Bytes} {de : Dirent} :
    namecmp name de.name = 0 ↔ text (name.take DIRSIZ) = de.text := by
  rw [namecmp, strncmp_eq_zero, List.take_of_length_le de.width.le]
  rfl

theorem namecmp_text {de other : Dirent} :
    namecmp de.text other.name = 0 ↔ de.text = other.text := by
  rw [namecmp_eq_zero, List.take_of_length_le de.text_length_le, Dirent.text, text_text]

variable {st : State n} {d i : ℕ}

theorem dirlookup_dir (dir : IsDir st d) (name : Bytes) : ∃ found,
    dirlookup (st.inode d) name = .ok found ∧ child st d name = found.map Prod.fst ∧
      found.map Prod.fst = ((st.inode d).entries.find? fun de =>
        de.inum ≠ 0 ∧ namecmp name de.name = 0).map Dirent.inum := by
  have whole := List.find?_map (f := Prod.fst) (l := (st.inode d).entries.zipIdx)
    (p := fun de : Dirent => decide (de.inum ≠ 0 ∧ namecmp name de.name = 0))
  rw [List.zipIdx_map_fst] at whole
  rw [whole]
  have open_ : dirlookup (st.inode d) name = .ok (((st.inode d).entries.zipIdx.find? fun found =>
      found.1.inum ≠ 0 ∧ namecmp name found.1.name = 0).map fun found =>
        (found.1.inum, found.2)) := by
    rw [dirlookup]
    exact if_neg fun closed => closed dir
  refine ⟨_, open_, ?_, ?_⟩
  · rw [child, open_]
    cases (st.inode d).entries.zipIdx.find? fun found =>
      found.1.inum ≠ 0 ∧ namecmp name found.1.name = 0 <;> rfl
  · rw [Option.map_map, Option.map_map]
    rfl

theorem dirlookup_child (dir : IsDir st d) {name : Bytes} {i : ℕ} (down : child st d name = some i) :
    ∃ off, dirlookup (st.inode d) name = .ok (some (i, off)) := by
  obtain ⟨found, looked, same, -⟩ := dirlookup_dir dir name
  rw [down] at same
  cases found with
  | none => simp at same
  | some found =>
      simp only [Option.map_some, Option.some.injEq] at same
      subst i
      exact ⟨found.2, looked⟩

theorem child_eq (dir : IsDir st d) (name : Bytes) : child st d name =
    ((st.inode d).entries.find? fun de => de.inum ≠ 0 ∧ namecmp name de.name = 0).map
      Dirent.inum := by
  obtain ⟨found, -, same, entries⟩ := dirlookup_dir dir name
  exact same.trans entries

namespace Tree

variable (tree : Tree st)
include tree

theorem child_text (dir : IsDir st d) {de : Dirent} (member : de ∈ (st.inode d).entries)
    (used : de.inum ≠ 0) : child st d de.text = some de.inum := by
  rw [child_eq dir]
  cases found : (st.inode d).entries.find? fun other =>
      other.inum ≠ 0 ∧ namecmp de.text other.name = 0 with
  | none =>
      have absent := List.find?_eq_none.mp found de member
      simp [used, namecmp_text] at absent
  | some other =>
      have here := List.mem_of_find?_eq_some found
      have equal := List.find?_some found
      simp only [namecmp_text, decide_eq_true_eq] at equal
      -- two entries of one name are one
      have same : de = other := by
        by_contra apart
        have symm : Std.Symm fun first second : Dirent => first.text ≠ second.text :=
          ⟨fun _ _ => Ne.symm⟩
        exact (tree.distinct d dir).forall (List.mem_filter.mpr ⟨member, by simpa using used⟩)
          (List.mem_filter.mpr ⟨here, by simpa using equal.1⟩) apart equal.2
      rw [Option.map_some, same]

theorem scan (dir : IsDir st d) (below : d ≠ ROOTINO) :
    ∃ de, (readDirents (st.inode (parent st d))).find? (fun de => de.inum ≠ 0 ∧ de.inum = d) =
        some de ∧ child st (parent st d) de.text = some d ∧ de.text ≠ [] ∧ slash ∉ de.text := by
  have above := (tree.up d dir).2
  have reads : readDirents (st.inode (parent st d)) = (st.inode (parent st d)).entries := by
    exact if_pos above
  have nonzero : d ≠ 0 := by
    intro zero
    exact tree.zero (zero ▸ dir)
  obtain ⟨entry, listed, names⟩ := List.countP_pos_iff.mp (by
    rw [tree.named d dir below]
    exact Nat.one_pos)
  simp only [decide_eq_true_eq] at names
  rw [reads]
  cases found : (st.inode (parent st d)).entries.find? fun de => de.inum ≠ 0 ∧ de.inum = d with
  | none =>
      have absent := List.find?_eq_none.mp found entry listed
      simp [names.1, nonzero] at absent
  | some de =>
      have member := List.mem_of_find?_eq_some found
      have same := List.find?_some found
      simp only [decide_eq_true_eq] at same
      have down := tree.child_text above member same.1
      rw [same.2] at down
      exact ⟨de, rfl, down, tree.clean _ above de member same.1⟩

theorem above (dir : IsDir st d) (k : ℕ) : IsDir st ((parent st)^[k] d) := by
  induction k with
  | zero => exact dir
  | succ k ih =>
      rw [Function.iterate_succ_apply']
      exact (tree.up _ ih).2

end Tree

/-- The name under which the scan finds a directory in its parent. -/
def label (st : State n) (d : ℕ) : Bytes :=
  match (readDirents (st.inode (parent st d))).find? fun de => de.inum ≠ 0 ∧ de.inum = d with
  | none => []
  | some de => de.name

theorem climb_round (dir : IsDir st d) (down : child st d dotdot = some (parent st d))
    (above : IsDir st (parent st d))
    (kept : ∀ x, IsDir st x → (st.inode x).nlink ≠ 0 ∨ (st.inode x).ref ≠ 0) (room : ℕ)
    (names : List Bytes) :
    climb room d names (st.get d) =
      if d = parent st d then .ok (some names, st)
      else
        match (readDirents (st.inode (parent st d))).find? fun de => de.inum ≠ 0 ∧ de.inum = d with
        | none => .ok (none, st)
        | some de =>
            match room with
            | 0 => .error .overflow
            | room + 1 => climb room (parent st d) ((de.name ++ [0]) :: names)
                (st.get (parent st d)) := by
  obtain ⟨off, looked⟩ := dirlookup_child dir down
  have allocated : ∀ x, IsDir st x → (st.inode x).type ≠ .free := by
    intro x dir
    rw [dir]
    simp
  have first := kept d dir
  have lock : ((st.get d).get (parent st d)).ilock (parent st d) = .ok () :=
    State.get_ilock (by simpa using allocated _ above)
  have back : (((st.get d).get (parent st d)).put (parent st d)).put d = st := by
    rw [State.get_put, State.get_put first]
    refine (kept _ above).imp ?_ ?_
    · simp
    · rw [State.get_ref]
      omega
  rw [climb]
  simp only [State.get_ilock (allocated d dir), State.dirlookup_get, looked, ok_bind, lock,
    State.readDirents_get, back, State.get_get_put first]

theorem climb_tree (tree : Tree st) {k room : ℕ} (within : k ≤ room) (dir : IsDir st d)
    (top : (parent st)^[k] d = ROOTINO) (below : ∀ j < k, (parent st)^[j] d ≠ ROOTINO)
    (names : List Bytes) :
    climb room d names (st.get d) =
      .ok (some (Ancestry.trail (parent st) (fun d => label st d ++ [0]) k d ++ names), st) := by
  induction k generalizing d room names with
  | zero =>
      obtain rfl : d = ROOTINO := top
      obtain ⟨down, above⟩ := tree.up ROOTINO dir
      rw [climb_round dir down above fun x dir => .inl (tree.linked x dir),
        if_pos tree.root.2.symm]
      rfl
  | succ k ih =>
      have start : d ≠ ROOTINO := below 0 (Nat.zero_lt_succ k)
      have apart : d ≠ parent st d :=
        (Ancestry.iterate_ne tree.root.2 top start Nat.one_pos).symm
      obtain ⟨de, found, -⟩ := tree.scan dir start
      have name : label st d = de.name := by simp only [label, found]
      obtain ⟨room, rfl⟩ : ∃ more, room = more + 1 := ⟨room - 1, by omega⟩
      obtain ⟨down, above⟩ := tree.up d dir
      rw [climb_round dir down above fun x dir => .inl (tree.linked x dir), if_neg apart]
      simp only [found]
      rw [ih (by omega) above top fun j less => below (j + 1) (by omega)]
      simp [Ancestry.trail, name]

/-! ### The path -/

def joined (names : List Bytes) : Bytes := names.flatMap fun name => slash :: name

def pathOf (names : List Bytes) : Bytes := if names = [] then [slash] else joined names

theorem head_pathOf (names : List Bytes) : (pathOf names).head? = some slash := by
  rw [pathOf]
  cases names with
  | nil => rfl
  | cons name rest => simp [joined]

theorem take_strlen (s : Bytes) : s.take (strlen s) = text s := by
  rw [strlen_eq]
  exact (List.prefix_iff_eq_take.mp (List.takeWhile_prefix _)).symm

theorem joinNames_ok {names : List Bytes} {kbuf : Bytes}
    (short : ∀ name ∈ names, (text name).length ≤ DIRSIZ)
    (fits : kbuf.length + names.length * (DIRSIZ + 1) + 1 ≤ KBUF) :
    joinNames kbuf names = .ok (kbuf ++ joined (names.map text) ++ [0]) := by
  induction names generalizing kbuf with
  | nil => simpa [joinNames, append, joined] using fits
  | cons name rest ih =>
      have long := short name (by simp)
      simp only [List.length_cons, Nat.add_mul, Nat.one_mul] at fits
      have first : append kbuf [slash] = .ok (kbuf ++ [slash]) := by
        rw [append, if_pos (by simp only [List.length_singleton]; omega)]
      have second : append (kbuf ++ [slash]) (text name) = .ok (kbuf ++ [slash] ++ text name) := by
        rw [append, if_pos (by simp only [List.length_append, List.length_singleton]; omega)]
      rw [joinNames, take_strlen, first, ok_bind, second, ok_bind,
        ih (fun other member => short other (by simp [member])) (by
          simp only [List.length_append, List.length_singleton]
          omega)]
      simp [joined]

theorem buildPath_ok {names : List Bytes} (short : ∀ name ∈ names, (text name).length ≤ DIRSIZ)
    (few : names.length ≤ MAXDEPTH) : buildPath names = .ok (pathOf (names.map text) ++ [0]) := by
  rw [buildPath, pathOf]
  by_cases none : names = []
  · simp [none]
  · rw [if_neg none, if_neg (by simpa using none), joinNames_ok short]
    · rfl
    · simp only [List.length_nil, DIRSIZ, KBUF, MAXDEPTH] at few ⊢
      omega

structure Plain (name : Bytes) : Prop where
  nonempty : name ≠ []
  clean : slash ∉ name
  short : name.length ≤ DIRSIZ

theorem skipelem_name {name rest : Bytes} (plain : Plain name)
    (next : ∀ c ∈ rest.head?, c = slash) :
    skipelem (slash :: name ++ rest) = some (name, rest.dropWhile fun c => c = slash) := by
  obtain ⟨c, s, rfl⟩ := List.exists_cons_of_ne_nil plain.nonempty
  have others : ∀ x ∈ c :: s, decide (x ≠ slash) = true := by
    intro x member
    have apart : x ≠ slash := fun same => plain.clean (same ▸ member)
    simpa using apart
  have start : ¬ (decide (c = slash) = true) := by simpa using others c (by simp)
  have stop : rest.takeWhile (fun x => decide (x ≠ slash)) = [] ∧
      rest.dropWhile (fun x => decide (x ≠ slash)) = rest := by
    cases rest with
    | nil => simp
    | cons x rest => simp [next x (by simp)]
  have dropped : (slash :: (c :: s) ++ rest).dropWhile (fun x => decide (x = slash)) =
      c :: (s ++ rest) := by
    rw [List.cons_append, List.dropWhile_cons_of_pos (by simp), List.cons_append]
    exact List.dropWhile_cons_of_neg start
  have taken : (c :: (s ++ rest)).takeWhile (fun x => decide (x ≠ slash)) = c :: s := by
    rw [← List.cons_append, List.takeWhile_append_of_pos others, stop.1, List.append_nil]
  have left : (c :: (s ++ rest)).dropWhile (fun x => decide (x ≠ slash)) = rest := by
    rw [← List.cons_append, List.dropWhile_append_of_pos others, stop.2]
  rw [skipelem, dropped]
  simp only [taken, left, List.take_of_length_le plain.short]

theorem skipelem_slashes (path : Bytes) :
    skipelem (path.dropWhile fun c => c = slash) = skipelem path := by
  rw [skipelem, skipelem, List.dropWhile_idempotent]

theorem namexLoop_congr {nameiparent : Bool} {ip : ℕ} {name path other : Bytes} {st : State n}
    (same : skipelem path = skipelem other) :
    namexLoop nameiparent ip name path st = namexLoop nameiparent ip name other st := by
  cases split : skipelem path with
  | none => rw [namexLoop_none split, namexLoop_none (same ▸ split)]
  | some element => rw [namexLoop_some split, namexLoop_some (same ▸ split)]

theorem namexLoop_follow (tree : Tree st) {names : List Bytes} {last : Bytes} {x : ℕ}
    (plain : ∀ name ∈ names, Plain name) (leads : Ancestry.follow (child st) d names = some x) :
    ∃ name, namexLoop false d last (joined names) (st.get d) =
      .ok (some (x, name), st.get x) := by
  induction names generalizing d last with
  | nil =>
      obtain rfl : d = x := Option.some.inj leads
      exact ⟨last, by rw [namexLoop_none rfl, if_neg (by simp)]⟩
  | cons name rest ih =>
      obtain ⟨next, down, leads⟩ := Option.bind_eq_some_iff.mp leads
      have dir : IsDir st d := by
        by_contra other
        have closed : dirlookup (st.inode d) name = .error (.panic .dirlookup) := by
          rw [dirlookup]
          exact if_pos other
        simp [child, closed] at down
      have allocated : (st.inode d).type ≠ .free := by
        rw [dir]
        simp
      have split : skipelem (joined (name :: rest)) =
          some (name, (joined rest).dropWhile fun c => c = slash) := by
        refine skipelem_name (plain name (by simp)) ?_
        cases rest with
        | nil => simp
        | cons => simp
      obtain ⟨off, looked⟩ := dirlookup_child dir down
      rw [namexLoop_some split, State.get_ilock allocated, ok_bind, State.get_type,
        if_neg fun closed => closed dir, if_neg (by simp), State.dirlookup_get, looked, ok_bind]
      simp only [State.get_get_put (.inl (tree.linked d dir))]
      rw [namexLoop_congr (skipelem_slashes (joined rest))]
      exact ih (fun other member => plain other (by simp [member])) leads

def names (st : State n) (k d : ℕ) : List Bytes :=
  Ancestry.trail (parent st) (fun d => text (label st d)) k d

theorem Tree.label (tree : Tree st) (dir : IsDir st d) (below : d ≠ ROOTINO) :
    child st (parent st d) (text (label st d)) = some d ∧ Plain (text (label st d)) := by
  obtain ⟨de, found, down, nonempty, clean⟩ := tree.scan dir below
  have name : FileSys.label st d = de.name := by simp only [FileSys.label, found]
  rw [name]
  exact ⟨down, nonempty, clean, de.text_length_le⟩

theorem Tree.plain_names (tree : Tree st) {k : ℕ} (dir : IsDir st d)
    (below : ∀ j < k, (parent st)^[j] d ≠ ROOTINO) : ∀ name ∈ names st k d, Plain name := by
  intro name member
  obtain ⟨j, less, rfl⟩ := Ancestry.mem_trail member
  exact (tree.label (tree.above dir j) (below j less)).2

theorem Tree.namex_names (tree : Tree st) {k : ℕ} (dir : IsDir st d)
    (top : (parent st)^[k] d = ROOTINO) (below : ∀ j < k, (parent st)^[j] d ≠ ROOTINO) (p : Fin n) :
    ∃ name, namex st p false (pathOf (names st k d)) = .ok (some (d, name), st.get d) := by
  have leads : Ancestry.follow (child st) ROOTINO (names st k d) = some d := by
    refine Ancestry.follow_trail top fun j less => ?_
    rw [Function.iterate_succ_apply']
    exact (tree.label (tree.above dir j) (below j less)).1
  have absolute := head_pathOf (names st k d)
  have same : skipelem (pathOf (names st k d)) = skipelem (joined (names st k d)) := by
    rw [pathOf]
    split
    · rename_i none
      rw [none]
      rfl
    · rfl
  simp only [namex, absolute, if_true, namexLoop_congr same]
  exact namexLoop_follow tree (tree.plain_names dir below) leads

theorem clean_pathOf {k : ℕ} : (0 : UInt8) ∉ pathOf (names st k d) := by
  intro member
  rw [pathOf] at member
  split at member
  · simp [slash] at member
  · obtain ⟨name, inside, zero⟩ := List.mem_flatMap.mp member
    rcases List.mem_cons.mp zero with first | later
    · simp [slash] at first
    · obtain ⟨j, -, rfl⟩ := Ancestry.mem_trail inside
      exact ne_zero_of_mem_text later rfl

theorem Tree.path_built (tree : Tree st) {k : ℕ} (dir : IsDir st d) (few : k ≤ MAXDEPTH)
    (top : (parent st)^[k] d = ROOTINO) (below : ∀ j < k, (parent st)^[j] d ≠ ROOTINO) :
    ∃ rows, climb MAXDEPTH d [] (st.get d) = .ok (some rows, st) ∧
      buildPath rows = .ok (pathOf (names st k d) ++ [0]) := by
  refine ⟨_, climb_tree tree few dir top below [], ?_⟩
  rw [List.append_nil]
  have texts : (Ancestry.trail (parent st) (fun d => FileSys.label st d ++ [0]) k d).map text =
      names st k d := by
    rw [Ancestry.trail_map, names]
    congr 1
    funext d
    exact text_append_zero _
  rw [buildPath_ok]
  · rw [texts]
  · intro row member
    have named := tree.plain_names dir below (text row) (texts ▸ List.mem_map_of_mem member)
    exact named.short
  · rw [Ancestry.trail_length]
    exact few

/-- On a well-formed tree `getcwd` of a directory at most 32 levels deep writes a path that leads back
to it, unless the path does not fit or `copyout` fails; it leaves every reference count alone. -/
theorem getcwd_round_trip (tree : Tree st) (p : Fin n) (dir : IsDir st (st.cwd p)) {depth : ℕ}
    (shallow : depth ≤ 32) (top : (parent st)^[depth] (st.cwd p) = ROOTINO) (buf : ℕ) (size : Int)
    (pages : TargetPages) (mem : ℕ → UInt8) :
    ∃ path : Bytes, path.head? = some slash ∧ 0 ∉ path ∧
      (∃ name, namex st p false path = .ok (some (st.cwd p, name), st.get (st.cwd p))) ∧
      ∃ ret written, sysGetcwd st p buf size pages mem = .ok (ret, written, st) ∧
        (ret = minusOne ↔ size < path.length + 1 ∨
          (copyout pages mem (path ++ [0]).get 0 buf (path ++ [0]).length).2 = false) ∧
        (ret ≠ minusOne → ret = buf ∧ ∀ va, written va =
          if buf ≤ va then ((path ++ [0])[va - buf]?).getD (mem va) else mem va) := by
  have root : ∃ k, (parent st)^[k] (st.cwd p) = ROOTINO := ⟨depth, top⟩
  have least : Nat.find root ≤ depth := Nat.find_min' root top
  have below : ∀ j < Nat.find root, (parent st)^[j] (st.cwd p) ≠ ROOTINO :=
    fun j less => Nat.find_min root less
  obtain ⟨rows, climbed, built⟩ :=
    tree.path_built dir (least.trans shallow) (Nat.find_spec root) below
  refine ⟨_, head_pathOf _, clean_pathOf, tree.namex_names dir (Nat.find_spec root) below p, ?_⟩
  generalize pathOf (names st (Nat.find root) (st.cwd p)) = path at built
  have minus : (buf : ℕ) < MAXVA + PGSIZE → buf ≠ minusOne := by
    unfold minusOne MAXVA PGSIZE
    omega
  simp only [sysGetcwd, climbed, built, ok_bind]
  have length : ((path ++ [0]).length : Int) = path.length + 1 := by simp
  by_cases long : ((path ++ [0]).length : Int) > size
  · exact ⟨_, _, if_pos long, by simp; omega, by simp⟩
  · rw [if_neg long]
    cases copied : copyout pages mem (path ++ [0]).get 0 buf (path ++ [0]).length with
    | mk written done =>
        cases done with
        | false => exact ⟨_, _, rfl, by simp, by simp⟩
        | true =>
            have success : (copyout pages mem (path ++ [0]).get 0 buf
                (path ++ [0]).length).2 = true := by rw [copied]
            have first := ((copyout_succeeds_iff ..).mp success 0 (by simp)).1
            have near := lt_pgRoundDown_add buf
            have other : buf ≠ minusOne := minus (by rw [Nat.add_zero] at first; omega)
            refine ⟨_, _, rfl, ?_, fun _ => ⟨rfl, fun va => ?_⟩⟩
            · simp only [other, false_iff, not_or]
              exact ⟨by omega, by simp⟩
            · have bytes := copyout_list pages mem (path ++ [0]) buf success va
              rw [copied] at bytes
              exact bytes

def nested : State 1 where
  inode
    | 1 => { type := .dir, nlink := 2, entries := [entry dot 1, entry dotdot 1, entry [97] 2],
             data := [], ref := 0 }
    | 2 => { type := .dir, nlink := 2, entries := [entry dot 2, entry dotdot 1, entry [98] 3],
             data := [], ref := 0 }
    | 3 => { type := .dir, nlink := 1, entries := [entry dot 3, entry dotdot 2], data := [],
             ref := 1 }
    | _ => { type := .free, nlink := 0, entries := [], data := [], ref := 0 }
  cwd := fun _ => 3
  ofile := fun _ => []

theorem nested_dir {d : ℕ} (dir : IsDir nested d) : d ∈ [1, 2, 3] := by
  rcases d with - | - | - | - | d
  · simp [IsDir, nested] at dir
  · simp
  · simp
  · simp
  · simp [IsDir, nested] at dir

theorem nested_tree : Tree nested where
  zero := by simp [IsDir, nested]
  root := ⟨rfl, by decide⟩
  up := by
    intro d dir
    have all : ∀ d ∈ [1, 2, 3], child nested d dotdot = some (parent nested d) ∧
        (nested.inode (parent nested d)).type = .dir := by decide
    exact all d (nested_dir dir)
  named := by
    intro d dir below
    have all : ∀ d ∈ [1, 2, 3], d ≠ ROOTINO → (nested.inode (parent nested d)).entries.countP
        (fun de => de.inum = d ∧ de.text ≠ dot ∧ de.text ≠ dotdot) = 1 := by decide
    exact all d (nested_dir dir) below
  distinct := by
    intro d dir
    have all : ∀ d ∈ [1, 2, 3], ((nested.inode d).entries.filter fun de => de.inum ≠ 0).Pairwise
        fun first second => first.text ≠ second.text := by decide
    exact all d (nested_dir dir)
  clean := by
    intro d dir
    have all : ∀ d ∈ [1, 2, 3], ∀ de ∈ (nested.inode d).entries, de.inum ≠ 0 →
        de.text ≠ [] ∧ slash ∉ de.text := by decide
    exact all d (nested_dir dir)
  linked := by
    intro d dir
    have all : ∀ d ∈ [1, 2, 3], (nested.inode d).nlink ≠ 0 := by decide
    exact all d (nested_dir dir)

theorem getcwd_round_trip_nested : ∃ path : Bytes, path.head? = some slash ∧ 0 ∉ path ∧
    (∃ name, namex nested 0 false path = .ok (some (3, name), nested.get 3)) ∧
    ∃ ret written, sysGetcwd nested 0 4096 512 (fun _ => some true) (fun _ => 0) =
      .ok (ret, written, nested) := by
  obtain ⟨path, absolute, clean, resolves, ret, written, result, -⟩ :=
    getcwd_round_trip nested_tree 0 rfl (show 2 ≤ 32 by decide) (by decide) 4096 512
      (fun _ => some true) (fun _ => 0)
  exact ⟨path, absolute, clean, resolves, ret, written, result⟩

end OsLab.Kernel.FileSys
