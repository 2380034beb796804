import OsLab.Kernel.Log
import OsLab.Library.RedoLog
import OsLab.Library.References
import Mathlib.Algebra.BigOperators.Ring.Finset
import Mathlib.Data.Fintype.Option

/-!
What a crash leaves: at every moment the disk and the log on it hold the state of the last commit,
in which no system call was under way.
-/

namespace OsLab.Kernel.Log

open OsLab.Library

variable {n start : ℕ}

/-! ### The header and the blocks of the log -/

@[simp] theorem readHead_writeHead (lh : List ℕ) (data : Block) :
    readHead (writeHead lh data) = lh := by
  refine List.ext_getElem (by simp [readHead, writeHead]) fun i first second => ?_
  simp [readHead, writeHead, second]

theorem readHead_zero {data : Block} (empty : data 0 = 0) : readHead data = [] := by
  simp [readHead, empty]

def entries (start : ℕ) (disk : ℕ → Block) (lh : List ℕ) : List (ℕ × Block) :=
  lh.zipIdx.map fun entry => (entry.1, disk (start + entry.2 + 1))

def recovered (start : ℕ) (disk : ℕ → Block) : ℕ → Block :=
  replay (entries start disk (readHead (disk start))) disk

theorem map_fst_entries (disk : ℕ → Block) (lh : List ℕ) :
    (entries start disk lh).map Prod.fst = lh := by
  simp [entries, List.map_map, Function.comp_def]

theorem mem_entries {disk : ℕ → Block} {lh : List ℕ} {b : ℕ} {data : Block} :
    (b, data) ∈ entries start disk lh ↔ ∃ i, lh[i]? = some b ∧ disk (start + i + 1) = data := by
  simp only [entries, List.mem_map, Prod.exists, Prod.mk.injEq, List.mem_zipIdx_iff_getElem?]
  constructor
  · rintro ⟨_, i, found, rfl, same⟩
    exact ⟨i, found, same⟩
  · rintro ⟨i, found, same⟩
    exact ⟨b, i, found, rfl, same⟩

theorem recovered_of_empty {disk : ℕ → Block} (empty : readHead (disk start) = []) :
    recovered start disk = disk := by
  rw [recovered, empty]
  rfl

theorem home_ne_start {b : ℕ} (home : Home start b) : b ≠ start := by
  unfold Home at home
  omega

theorem home_ne_slot {b i : ℕ} (home : Home start b) (inside : i < LOGBLOCKS) :
    b ≠ start + i + 1 := by
  unfold Home at home
  omega

/-! ### The invariant -/

structure Stored (start : ℕ) (s : State n) : Prop where
  nodup : (readHead (s.disk start)).Nodup
  home : ∀ b ∈ readHead (s.disk start), Home start b
  fits : (readHead (s.disk start)).length ≤ LOGBLOCKS
  durable : ∀ b, Home start b → recovered start s.disk b = s.committed b

structure Rebooted (s : State n) : Prop where
  cached : ∀ b, s.cache b = none ∨ s.cache b = some (s.disk b)
  refcnt : ∀ b, s.refcnt b = 0
  held : ∀ p, s.held p = []
  outstanding : s.outstanding = 0
  committing : s.committing = false
  pc : ∀ p, s.pc p = .user
  changed : ∀ b, s.changed b = false
  pinned : s.pinned = []

def ops : Pc → ℕ
  | .op _ => 1
  | _ => 0

def reserve : Pc → ℕ
  | .op used => MAXOPBLOCKS - used
  | _ => 0

@[simp] theorem ops_user : ops .user = 0 := rfl

@[simp] theorem ops_op (used : ℕ) : ops (.op used) = 1 := rfl

@[simp] theorem ops_commit (stage : Stage) : ops (.commit stage) = 0 := rfl

@[simp] theorem reserve_user : reserve .user = 0 := rfl

@[simp] theorem reserve_op (used : ℕ) : reserve (.op used) = MAXOPBLOCKS - used := rfl

@[simp] theorem reserve_commit (stage : Stage) : reserve (.commit stage) = 0 := rfl

def holders (s : State n) : Option (Fin n) → List ℕ
  | none => s.pinned
  | some p => s.held p

def StageOk (start : ℕ) (s : State n) : Stage → Prop
  | .writeLog tail => readHead (s.disk start) = [] ∧ s.pinned = s.lh ∧ tail ≤ s.lh.length ∧
      ∀ i b, i < tail → s.lh[i]? = some b → s.disk (start + i + 1) = s.view b
  | .installTrans tail => readHead (s.disk start) = s.lh ∧ s.pinned = s.lh.drop tail ∧
      tail ≤ s.lh.length ∧
      (∀ i b, s.lh[i]? = some b → s.disk (start + i + 1) = s.view b) ∧
      ∀ i b, i < tail → s.lh[i]? = some b → s.disk b = s.view b
  | .finish => readHead (s.disk start) = [] ∧ s.pinned = [] ∧ s.lh = []

def Idle (start : ℕ) (s : State n) : Prop :=
  s.committing = false ∧ (∀ p stage, s.pc p ≠ .commit stage) ∧ readHead (s.disk start) = [] ∧
    s.pinned = s.lh ∧ (s.outstanding = 0 → s.lh = [])

def Committing (start : ℕ) (s : State n) (p : Fin n) (stage : Stage) : Prop :=
  s.committing = true ∧ s.pc p = .commit stage ∧ (∀ q, q ≠ p → s.pc q = .user) ∧
    StageOk start s stage

structure Running (start : ℕ) (s : State n) : Prop where
  nodup : s.lh.Nodup
  home : ∀ b ∈ s.lh, Home start b
  held : ∀ p, ∀ b ∈ s.held p, Home start b
  cached : ∀ o, ∀ b ∈ holders s o, s.cache b ≠ none
  covers : Covers s.refcnt (holders s)
  clean : ∀ b, b ∉ s.pinned → s.changed b = false →
    s.cache b = none ∨ s.cache b = some (s.disk b)
  changed : ∀ b, s.changed b = true → ∃ p used, b ∈ s.held p ∧ s.pc p = .op used
  count : s.outstanding = ∑ p, ops (s.pc p)
  room : s.lh.length + ∑ p, reserve (s.pc p) ≤ LOGBLOCKS
  phase : Idle start s ∨ ∃ p stage, Committing start s p stage

def Phase (start : ℕ) (s : State n) : Prop :=
  match s.mode with
  | .initlog => Rebooted s
  | .recovering tail => Rebooted s ∧ s.lh = readHead (s.disk start) ∧
      ∀ i b, i < tail → s.lh[i]? = some b → s.disk b = s.disk (start + i + 1)
  | .running => Running start s

structure Inv (start : ℕ) (s : State n) : Prop where
  stored : Stored start s
  phase : Phase start s
  calm : s.panic = none ∨ s.panic = some .noBuffers

variable {s t : State n} {p : Fin n}

theorem total_update (f : Pc → ℕ) (pc : Fin n → Pc) (p : Fin n) (next : Pc) :
    ∑ q, f (Function.update pc p next q) + f (pc p) = ∑ q, f (pc q) + f next := by
  have split : ∀ g : Fin n → Pc, ∑ q, f (g q) = f (g p) + ∑ q ∈ Finset.univ.erase p, f (g q) :=
    fun g => (Finset.add_sum_erase _ _ (Finset.mem_univ p)).symm
  have rest : ∑ q ∈ Finset.univ.erase p, f (Function.update pc p next q) =
      ∑ q ∈ Finset.univ.erase p, f (pc q) := by
    refine Finset.sum_congr rfl fun q member => ?_
    rw [Function.update_of_ne (Finset.ne_of_mem_erase member)]
  rw [split, split pc, rest, Function.update_self]
  omega

theorem view_of_clean {b : ℕ} (clean : s.cache b = none ∨ s.cache b = some (s.disk b)) :
    s.view b = s.disk b := by
  rcases clean with same | same <;> simp [State.view, same]

theorem view_fetch (s : State n) (b : ℕ) :
    { s with cache := Function.update s.cache b (some (s.view b)) }.view = s.view := by
  funext c
  by_cases same : c = b
  · subst c
    simp [State.view]
  · simp [State.view, same]

theorem view_bwrite_of_ne {b c : ℕ} {data : Block} (other : c ≠ b) :
    (s.bwrite b data).view c = s.view c := by
  simp [State.view, State.bwrite, other]

theorem StageOk.congr {stage : Stage} (ok : StageOk start s stage) (disk : t.disk = s.disk)
    (view : t.view = s.view) (lh : t.lh = s.lh) (pinned : t.pinned = s.pinned) :
    StageOk start t stage := by
  cases stage <;> simpa only [StageOk, disk, view, lh, pinned] using ok

theorem Stored.congr (stored : Stored start s) (disk : t.disk = s.disk)
    (committed : t.committed = s.committed) : Stored start t :=
  ⟨by rw [disk]; exact stored.nodup, by rw [disk]; exact stored.home,
    by rw [disk]; exact stored.fits, by rw [disk, committed]; exact stored.durable⟩

/-! ### Buffers -/

namespace Running

theorem length_le (running : Running start s) : s.lh.length ≤ LOGBLOCKS := by
  have room := running.room
  omega

theorem buffers (running : Running start s) {cache : ℕ → Option Block} {refcnt : ℕ → ℕ}
    {held : Fin n → List ℕ}
    (view : { s with cache := cache, refcnt := refcnt, held := held }.view = s.view)
    (home : ∀ p, ∀ b ∈ held p, Home start b)
    (cached : ∀ b, (b ∈ s.pinned ∨ ∃ p, b ∈ held p) → cache b ≠ none)
    (covers : Covers refcnt (holders { s with held := held }))
    (clean : ∀ b, b ∉ s.pinned → s.changed b = false →
      cache b = none ∨ cache b = some (s.disk b))
    (changed : ∀ p b, s.changed b = true → b ∈ s.held p → b ∈ held p) :
    Running start { s with cache := cache, refcnt := refcnt, held := held } := by
  refine ⟨running.nodup, running.home, home, fun o b member => cached b ?_, ?_, clean,
    fun b after => ?_, running.count, running.room, ?_⟩
  · cases o with
    | none => exact .inl member
    | some p => exact .inr ⟨p, member⟩
  · exact covers
  · obtain ⟨p, used, inside, here⟩ := running.changed b after
    exact ⟨p, used, changed p b after inside, here⟩
  · refine running.phase.imp id ?_
    rintro ⟨p, stage, committing, here, alone, ok⟩
    exact ⟨p, stage, committing, here, alone, ok.congr rfl view rfl rfl⟩

theorem fetched (running : Running start s) {b c : ℕ} (outside : c ∉ s.pinned)
    (same : s.changed c = false) :
    Function.update s.cache b (some (s.view b)) c = none ∨
      Function.update s.cache b (some (s.view b)) c = some (s.disk c) := by
  by_cases here : c = b
  · subst c
    rw [Function.update_self, view_of_clean (running.clean b outside same)]
    exact .inr rfl
  · rw [Function.update_of_ne here]
    exact running.clean c outside same

theorem fetched_ne {b c : ℕ} (before : s.cache c ≠ none) :
    Function.update s.cache b (some (s.view b)) c ≠ none := by
  by_cases here : c = b
  · simp [here]
  · rwa [Function.update_of_ne here]

theorem holders_held (s : State n) (p : Fin n) (bufs : List ℕ) :
    holders { s with held := Function.update s.held p bufs } =
      Function.update (holders s) (some p) bufs := by
  funext o
  cases o with
  | none => rfl
  | some q =>
      by_cases same : q = p
      · subst q
        simp [holders]
      · simp [holders, same]

theorem holders_pinned (s : State n) (pinned : List ℕ) :
    holders { s with pinned := pinned } = Function.update (holders s) none pinned := by
  funext o
  cases o <;> simp [holders]

theorem bread (running : Running start s) {b : ℕ} (home : Home start b)
    (taken : s.bread p b = some t) : Running start t := by
  rw [State.bread] at taken
  split at taken
  · obtain rfl := Option.some.inj taken
    refine running.buffers ?_ (fun q c member => ?_) (fun c used => ?_) ?_
      (fun c outside same => running.fetched outside same) fun q c _ member => ?_
    · exact view_fetch s b
    · by_cases same : q = p
      · subst q
        rw [Function.update_self] at member
        rcases List.mem_cons.mp member with rfl | before
        · exact home
        · exact running.held p c before
      · rw [Function.update_of_ne same] at member
        exact running.held q c member
    · by_cases here : c = b
      · simp [here]
      · refine fetched_ne ?_
        rcases used with pinned | ⟨q, member⟩
        · exact running.cached none c pinned
        · refine running.cached (some q) c ?_
          by_cases same : q = p
          · subst q
            rw [Function.update_self] at member
            exact (List.mem_cons.mp member).resolve_left here
          · rwa [Function.update_of_ne same] at member
    · rw [holders_held]
      refine running.covers.move fun c => ?_
      by_cases here : c = b
      · subst c
        simp [holders]
        omega
      · simp [holders, here, Ne.symm here]
    · by_cases same : q = p
      · subst q
        rw [Function.update_self]
        exact List.mem_cons_of_mem _ member
      · rwa [Function.update_of_ne same]
  · cases taken

theorem brelse (running : Running start s) {b : ℕ} (logged : s.changed b = false)
    (taken : s.brelse p b = some t) : Running start t := by
  rw [State.brelse] at taken
  split at taken
  · rename_i mine
    obtain rfl := Option.some.inj taken
    have before : ∀ q c, c ∈ Function.update s.held p ((s.held p).erase b) q → c ∈ s.held q := by
      intro q c member
      by_cases same : q = p
      · subst q
        rw [Function.update_self] at member
        exact List.mem_of_mem_erase member
      · rwa [Function.update_of_ne same] at member
    refine running.buffers rfl (fun q c member => running.held q c (before q c member))
      (fun c used => ?_) ?_ running.clean fun q c changed member => ?_
    · rcases used with pinned | ⟨q, member⟩
      · exact running.cached none c pinned
      · exact running.cached (some q) c (before q c member)
    · rw [holders_held]
      refine running.covers.move fun c => ?_
      have positive := running.covers.pos (some p) mine
      by_cases here : c = b
      · subst c
        have one : 0 < (s.held p).count b := List.count_pos_iff.mpr mine
        simp only [Function.update_self, List.count_erase_self, holders]
        omega
      · simp [holders, here, List.count_erase_of_ne here]
    · by_cases same : q = p
      · subst q
        rw [Function.update_self]
        refine (List.mem_erase_of_ne ?_).mpr member
        rintro rfl
        simp [logged] at changed
      · rwa [Function.update_of_ne same]
  · cases taken

theorem unused (running : Running start s) {b : ℕ} (unused : s.refcnt b = 0) :
    (∀ o, b ∉ holders s o) ∧ s.changed b = false := by
  have free : ∀ o, b ∉ holders s o := by
    intro o member
    have positive := running.covers.pos o member
    omega
  refine ⟨free, ?_⟩
  by_contra changed
  rw [Bool.not_eq_false] at changed
  obtain ⟨q, -, member, -⟩ := running.changed b changed
  exact free (some q) member

theorem view_evict (running : Running start s) {b : ℕ} (unused : s.refcnt b = 0) :
    { s with cache := Function.update s.cache b none }.view = s.view := by
  obtain ⟨free, same⟩ := running.unused unused
  funext c
  by_cases here : c = b
  · subst c
    rw [view_of_clean (running.clean b (free none) same)]
    simp [State.view]
  · simp [State.view, here]

theorem evict (running : Running start s) {b : ℕ} (taken : s.evict b = some t) :
    Running start t := by
  rw [State.evict] at taken
  split at taken
  · rename_i unused
    obtain rfl := Option.some.inj taken
    obtain ⟨free, -⟩ := running.unused unused
    refine running.buffers (running.view_evict unused) running.held (fun c used => ?_)
      running.covers (fun c outside same => ?_) fun _ _ _ member => member
    · have other : c ≠ b := by
        rintro rfl
        rcases used with pinned | ⟨q, member⟩
        · exact free none pinned
        · exact free (some q) member
      rw [Function.update_of_ne other]
      rcases used with pinned | ⟨q, member⟩
      · exact running.cached none c pinned
      · exact running.cached (some q) c member
    · by_cases here : c = b
      · exact .inl (by simp [here])
      · rw [Function.update_of_ne here]
        exact running.clean c outside same
  · cases taken

/-! ### System calls -/

theorem idle (running : Running start s) {used : ℕ} (here : s.pc p = .op used) : Idle start s := by
  refine running.phase.resolve_right ?_
  rintro ⟨q, stage, -, there, alone, -⟩
  by_cases same : p = q
  · rw [same, there] at here
    cases here
  · rw [alone p same] at here
    cases here

theorem outstanding_pos (running : Running start s) {used : ℕ} (here : s.pc p = .op used) :
    0 < s.outstanding := by
  have part : ops (s.pc p) ≤ ∑ q, ops (s.pc q) :=
    Finset.single_le_sum (f := fun q => ops (s.pc q)) (fun _ _ => Nat.zero_le _)
      (Finset.mem_univ p)
  rw [running.count]
  rw [here] at part
  exact part

theorem beginOp (running : Running start s) (taken : s.beginOp p = some t) : Running start t := by
  rw [State.beginOp] at taken
  split at taken
  · cases taken
  rename_i here
  split at taken
  · cases taken
  rename_i quiet
  split at taken
  · cases taken
  rename_i room
  obtain rfl := Option.some.inj taken
  rw [ne_eq, not_not] at here
  have counted := total_update ops s.pc p (.op 0)
  have reserved := total_update reserve s.pc p (.op 0)
  have bound : ∑ q, reserve (s.pc q) ≤ s.outstanding * MAXOPBLOCKS := by
    rw [running.count, Finset.sum_mul]
    refine Finset.sum_le_sum fun q _ => ?_
    cases s.pc q <;> simp
  simp only [here, ops_user, ops_op, reserve_user, reserve_op] at counted reserved
  refine ⟨running.nodup, running.home, running.held, running.cached, running.covers,
    running.clean, fun b after => ?_, ?_, ?_, .inl ?_⟩
  · obtain ⟨q, used, inside, there⟩ := running.changed b after
    have other : q ≠ p := by
      rintro rfl
      rw [here] at there
      cases there
    exact ⟨q, used, inside, by simpa [State.goto, other] using there⟩
  · have before := running.count
    simp only [State.goto]
    omega
  · rw [Nat.add_mul] at room
    simp only [State.goto]
    omega
  · obtain ⟨-, nobody, head, pinned, -⟩ := running.phase.resolve_right fun ⟨q, _, busy, _⟩ => by
      simp [busy] at quiet
    refine ⟨Bool.not_eq_true _ ▸ quiet, fun q stage => ?_, head, pinned, by simp [State.goto]⟩
    by_cases same : q = p
    · simp [State.goto, same]
    · simpa [State.goto, same] using nobody q stage

theorem modify (running : Running start s) {b : ℕ} {data : Block}
    (taken : s.modify p b data = some t) : Running start t := by
  rw [State.modify] at taken
  split at taken
  · rename_i used here
    split at taken
    · rename_i mine
      obtain rfl := Option.some.inj taken
      refine ⟨running.nodup, running.home, running.held, fun o c member => ?_, running.covers,
        fun c outside same => ?_, fun c after => ?_, running.count, running.room,
        .inl (running.idle here)⟩
      · by_cases same : c = b
        · simp [same]
        · simpa [same] using running.cached o c member
      · by_cases here : c = b
        · simp [here] at same
        · simpa [here] using running.clean c outside (by simpa [here] using same)
      · by_cases same : c = b
        · exact ⟨p, used, same ▸ mine, here⟩
        · exact running.changed c (by simpa [same] using after)
    · cases taken
  · cases taken

/-- `log_write` does not panic as long as the system call has blocks left. -/
theorem logWrite (running : Running start s) {b : ℕ}
    (budget : (s.pc p).used < MAXOPBLOCKS)
    (taken : s.logWrite p b = some t) : Running start t ∧ t.panic = s.panic := by
  rw [State.logWrite] at taken
  split at taken
  · rename_i used here
    have left : used < MAXOPBLOCKS := by rwa [here] at budget
    have part : reserve (s.pc p) ≤ ∑ q, reserve (s.pc q) :=
      Finset.single_le_sum (f := fun q => reserve (s.pc q)) (fun _ _ => Nat.zero_le _)
        (Finset.mem_univ p)
    have room := running.room
    have begun := running.outstanding_pos here
    obtain ⟨quiet, nobody, head, pinned, -⟩ := running.idle here
    rw [here, reserve_op] at part
    split at taken
    · cases taken
    rename_i mine
    rw [not_not] at mine
    rw [if_neg (by omega), if_neg (by omega)] at taken
    have changes : ∀ c, Function.update s.changed b false c = true → s.changed c = true := by
      intro c after
      by_cases same : c = b
      · simp [same] at after
      · simpa [same] using after
    split at taken
    · rename_i logged
      obtain rfl := Option.some.inj taken
      refine ⟨⟨running.nodup, running.home, running.held, running.cached, running.covers,
        fun c outside same => running.clean c outside ?_,
        fun c after => running.changed c (changes c after), running.count, running.room,
        .inl ⟨quiet, nobody, head, pinned, fun none => by
          simp only at none
          omega⟩⟩, rfl⟩
      have other : c ≠ b := by
        rintro rfl
        exact outside (pinned ▸ logged)
      simpa [other] using same
    · rename_i fresh
      obtain rfl := Option.some.inj taken
      have counted := total_update ops s.pc p (.op (used + 1))
      have reserved := total_update reserve s.pc p (.op (used + 1))
      simp only [here, ops_op, reserve_op] at counted reserved
      have covers : Covers (Function.update s.refcnt b (s.refcnt b + 1))
          (Function.update (holders s) none (s.pinned ++ [b])) := by
        refine running.covers.move fun c => ?_
        by_cases same : c = b
        · subst c
          simp [holders]
          omega
        · simp [holders, same, Ne.symm same]
      rw [← holders_pinned] at covers
      refine ⟨⟨?_, fun c member => ?_, running.held, fun o c member => ?_, covers,
        fun c outside same => ?_, fun c after => ?_, ?_, ?_, .inl ⟨quiet, fun q stage => ?_, head,
        congrArg (· ++ [b]) pinned, ?_⟩⟩, rfl⟩
      · exact List.nodup_append.mpr ⟨running.nodup, by simp, by
          rintro c member _ last rfl
          exact fresh (List.mem_singleton.mp last ▸ member)⟩
      · rcases List.mem_append.mp member with before | last
        · exact running.home c before
        · exact List.mem_singleton.mp last ▸ running.held p b mine
      · cases o with
        | none =>
            rcases List.mem_append.mp member with before | last
            · exact running.cached none c before
            · exact List.mem_singleton.mp last ▸ running.cached (some p) b mine
        | some q => exact running.cached (some q) c member
      · simp only [State.goto, State.bpin, List.mem_append, List.mem_singleton, not_or] at outside
        exact running.clean c outside.1 (by simpa [State.goto, State.bpin, outside.2] using same)
      · obtain ⟨q, used', inside, there⟩ := running.changed c (changes c after)
        by_cases same : q = p
        · subst q
          exact ⟨p, used + 1, inside, by simp [State.goto, State.bpin]⟩
        · exact ⟨q, used', inside, by simpa [State.goto, State.bpin, same] using there⟩
      · have before := running.count
        simp only [State.goto, State.bpin]
        omega
      · simp only [State.goto, State.bpin, List.length_append, List.length_singleton]
        omega
      · by_cases same : q = p
        · simp [State.goto, State.bpin, same]
        · simpa [State.goto, State.bpin, same] using nobody q stage
      · intro none
        simp only [State.goto, State.bpin] at none
        omega
  · cases taken

theorem endOp (running : Running start s) (done : s.held p = [])
    (taken : s.endOp p = some t) : Running start t ∧ t.panic = s.panic := by
  rw [State.endOp] at taken
  split at taken
  · rename_i used here
    obtain ⟨quiet, nobody, head, pinned, -⟩ := running.idle here
    have begun := running.outstanding_pos here
    have count := running.count
    have room := running.room
    have elsewhere : ∀ b, s.changed b = true → ∀ next, ∃ q used, b ∈ s.held q ∧
        Function.update s.pc p next q = .op used := by
      intro b after next
      obtain ⟨q, used', inside, there⟩ := running.changed b after
      have other : q ≠ p := by
        rintro rfl
        simp [done] at inside
      exact ⟨q, used', inside, by rw [Function.update_of_ne other]; exact there⟩
    rw [if_neg (by simp [quiet])] at taken
    split at taken
    · rename_i last
      obtain rfl := Option.some.inj taken
      generalize stage : (if s.lh.length > 0 then Stage.writeLog 0 else Stage.finish) = first
      have counted := total_update ops s.pc p (.commit first)
      have reserved := total_update reserve s.pc p (.commit first)
      rw [here] at counted reserved
      simp only [ops_op, ops_commit, reserve_op, reserve_commit] at counted reserved
      have alone : ∀ q, q ≠ p → s.pc q = .user := by
        intro q other
        have none : ops (Function.update s.pc p (.commit first) q) = 0 := by
          have part : ops (Function.update s.pc p (.commit first) q) ≤
              ∑ r, ops (Function.update s.pc p (.commit first) r) :=
            Finset.single_le_sum (f := fun r => ops (Function.update s.pc p (.commit first) r))
              (fun _ _ => Nat.zero_le _) (Finset.mem_univ q)
          omega
        rw [Function.update_of_ne other] at none
        cases there : s.pc q with
        | user => rfl
        | op used => simp [there] at none
        | commit stage => exact absurd there (nobody q stage)
      refine ⟨⟨running.nodup, running.home, running.held, running.cached, running.covers,
        running.clean, fun b after => elsewhere b after _, ?_, ?_, .inr ⟨p, first, rfl, ?_,
          fun q other => ?_, ?_⟩⟩, rfl⟩
      · simp only [State.goto]
        omega
      · simp only [State.goto]
        omega
      · simp [State.goto]
      · simp [State.goto, other, alone q other]
      · subst first
        split
        · exact ⟨head, pinned, Nat.zero_le _, fun i b none => absurd none (Nat.not_lt_zero i)⟩
        · rename_i empty
          have none : s.lh = [] := by simpa using empty
          exact ⟨head, pinned.trans none, none⟩
    · rename_i more
      obtain rfl := Option.some.inj taken
      have counted := total_update ops s.pc p .user
      have reserved := total_update reserve s.pc p .user
      rw [here] at counted reserved
      simp only [ops_op, ops_user, reserve_op, reserve_user] at counted reserved
      refine ⟨⟨running.nodup, running.home, running.held, running.cached, running.covers,
        running.clean, fun b after => elsewhere b after _, ?_, ?_, .inl ⟨quiet, fun q stage => ?_,
          head, pinned, fun none => absurd none more⟩⟩, rfl⟩
      · simp only [State.goto]
        omega
      · simp only [State.goto]
        omega
      · by_cases same : q = p
        · simp [State.goto, same]
        · simpa [State.goto, same] using nobody q stage
  · cases taken

end Running

/-! ### The commit -/

/-- What a step of the commit leaves: no home block reads differently, and what a crash leaves is
as before or is what is read now. -/
structure Commits (start : ℕ) (s t : State n) (p : Fin n) : Prop where
  running : Running start t
  stored : Stored start t
  view : ∀ b, Home start b → t.view b = s.view b
  committed : t.committed = s.committed ∨ t.committed = s.view
  pc : ∃ next, t.pc = Function.update s.pc p next ∧ ops next = 0
  panic : t.panic = s.panic

section Commit

variable {stage : Stage} {tail home : ℕ}

theorem Running.unchanged (running : Running start s) (committing : Committing start s p stage)
    (b : ℕ) : s.changed b = false := by
  by_contra changed
  rw [Bool.not_eq_false] at changed
  obtain ⟨q, used, -, there⟩ := running.changed b changed
  by_cases same : q = p
  · rw [same, committing.2.1] at there
    cases there
  · rw [committing.2.2.1 q same] at there
    cases there

theorem Committing.move (committing : Committing start s p stage) {next : Stage}
    (flag : t.committing = true) (pc : t.pc = Function.update s.pc p (.commit next))
    (ok : StageOk start t next) : Committing start t p next := by
  refine ⟨flag, by rw [pc, Function.update_self], fun q other => ?_, ok⟩
  rw [pc, Function.update_of_ne other]
  exact committing.2.2.1 q other

theorem Running.totals (running : Running start s) (committing : Committing start s p stage)
    (next : Pc) (op : ops next = 0) (reserved : reserve next = 0) :
    s.outstanding = ∑ q, ops (Function.update s.pc p next q) ∧
      ∑ q, reserve (Function.update s.pc p next q) = ∑ q, reserve (s.pc q) := by
  have one := total_update ops s.pc p next
  have two := total_update reserve s.pc p next
  have count := running.count
  rw [committing.2.1, op, ops_commit] at one
  rw [committing.2.1, reserved, reserve_commit] at two
  exact ⟨by omega, by omega⟩

theorem Running.writeLog (running : Running start s) (stored : Stored start s)
    (committing : Committing start s p (.writeLog tail)) (found : s.lh[tail]? = some home) :
    Commits start s ((({ s with cache := Function.update s.cache home (some (s.view home)) }.bwrite
      (start + tail + 1) (s.view home)).goto p (.commit (.writeLog (tail + 1))))) p := by
  obtain ⟨head, pinned, -, slots⟩ := committing.2.2.2
  obtain ⟨bound, -⟩ := List.getElem?_eq_some_iff.mp found
  have inside : tail < LOGBLOCKS := bound.trans_le running.length_le
  have other : home ≠ start + tail + 1 :=
    home_ne_slot (running.home home (List.mem_of_getElem? found)) inside
  have same : start ≠ start + tail + 1 := by omega
  have view : ∀ b, b ≠ start + tail + 1 →
      (({ s with cache := Function.update s.cache home (some (s.view home)) }.bwrite
        (start + tail + 1) (s.view home)).goto p (.commit (.writeLog (tail + 1)))).view b =
          s.view b := by
    intro b apart
    exact (view_bwrite_of_ne apart).trans (congrFun (view_fetch s home) b)
  obtain ⟨count, reserved⟩ := running.totals committing (.commit (.writeLog (tail + 1))) rfl rfl
  refine ⟨⟨running.nodup, running.home, running.held, fun o b member => ?_, running.covers,
    fun b outside _ => ?_, fun b after => ?_, count, ?_, .inr ⟨p, .writeLog (tail + 1), ?_⟩⟩,
    ⟨?_, ?_, ?_, ?_⟩, fun b at_home => view b (home_ne_slot at_home inside), .inl rfl,
    ⟨_, rfl, rfl⟩, rfl⟩
  · have before := running.cached o b member
    simp only [State.goto, State.bwrite]
    by_cases slot : b = start + tail + 1
    · simp [slot]
    · rw [Function.update_of_ne slot]
      exact Running.fetched_ne before
  · simp only [State.goto, State.bwrite]
    by_cases slot : b = start + tail + 1
    · simp [slot]
    · rw [Function.update_of_ne slot, Function.update_of_ne slot]
      exact running.fetched outside (running.unchanged committing b)
  · simp [State.goto, State.bwrite, running.unchanged committing b] at after
  · exact (congrArg (s.lh.length + ·) reserved).trans_le running.room
  · refine committing.move committing.1 rfl ⟨?_, pinned, bound, fun i b below lookup => ?_⟩
    · simpa [State.goto, State.bwrite, same] using head
    · have apart := home_ne_slot (running.home b (List.mem_of_getElem? lookup)) inside
      rw [view b apart]
      simp only [State.goto, State.bwrite]
      by_cases here : i = tail
      · subst i
        obtain rfl : home = b := Option.some.inj (found.symm.trans lookup)
        rw [Function.update_self]
      · rw [Function.update_of_ne (by omega)]
        exact slots i b (by omega) lookup
  · simpa [State.goto, State.bwrite, same] using stored.nodup
  · simpa [State.goto, State.bwrite, same] using stored.home
  · simpa [State.goto, State.bwrite, same] using stored.fits
  · intro b at_home
    have kept := stored.durable b at_home
    rw [recovered_of_empty head] at kept
    refine Eq.trans ?_ kept
    rw [recovered_of_empty (by simpa [State.goto, State.bwrite, same] using head)]
    exact Function.update_of_ne (home_ne_slot at_home inside) _ _

theorem Running.all_logged (committing : Committing start s p (.writeLog tail))
    (end_of : s.lh[tail]? = none) : tail = s.lh.length := by
  obtain ⟨-, -, bound, -⟩ := committing.2.2.2
  rw [List.getElem?_eq_none_iff] at end_of
  omega

theorem Running.commitPoint (running : Running start s) (committing : Committing start s p
    (.writeLog tail)) (end_of : s.lh[tail]? = none) :
    Commits start s (({ s with committed := s.view }.bwrite start
      (writeHead s.lh (s.view start))).goto p (.commit (.installTrans 0))) p := by
  obtain ⟨head, pinned, -, slots⟩ := committing.2.2.2
  obtain rfl := Running.all_logged committing end_of
  have length := running.length_le
  have view : ∀ b, b ≠ start → (({ s with committed := s.view }.bwrite start
      (writeHead s.lh (s.view start))).goto p (.commit (.installTrans 0))).view b = s.view b :=
    fun b apart => view_bwrite_of_ne (s := { s with committed := s.view }) apart
  obtain ⟨count, reserved⟩ := running.totals committing (.commit (.installTrans 0)) rfl rfl
  have written : ∀ i b, s.lh[i]? = some b →
      Function.update s.disk start (writeHead s.lh (s.view start)) (start + i + 1) = s.view b := by
    intro i b lookup
    obtain ⟨bound, -⟩ := List.getElem?_eq_some_iff.mp lookup
    rw [Function.update_of_ne (by omega)]
    exact slots i b bound lookup
  refine ⟨⟨running.nodup, running.home, running.held, fun o b member => ?_, running.covers,
    fun b outside _ => ?_, fun b after => ?_, count, ?_, .inr ⟨p, .installTrans 0, ?_⟩⟩,
    ⟨?_, ?_, ?_, ?_⟩, fun b at_home => view b (home_ne_start at_home), .inr rfl, ⟨_, rfl, rfl⟩, rfl⟩
  · have before := running.cached o b member
    simp only [State.goto, State.bwrite]
    by_cases here : b = start
    · simp [here]
    · rwa [Function.update_of_ne here]
  · simp only [State.goto, State.bwrite]
    by_cases here : b = start
    · simp [here]
    · rw [Function.update_of_ne here, Function.update_of_ne here]
      exact running.clean b outside (running.unchanged committing b)
  · simp [State.goto, State.bwrite, running.unchanged committing b] at after
  · exact (congrArg (s.lh.length + ·) reserved).trans_le running.room
  · refine committing.move committing.1 rfl
      ⟨by simp [State.goto, State.bwrite], pinned, Nat.zero_le _, fun i b lookup => ?_,
        fun i b none => absurd none (Nat.not_lt_zero i)⟩
    rw [view b (home_ne_start (running.home b (List.mem_of_getElem? lookup)))]
    exact written i b lookup
  · simpa [State.goto, State.bwrite] using running.nodup
  · simpa [State.goto, State.bwrite] using running.home
  · simpa [State.goto, State.bwrite] using length
  · intro b at_home
    simp only [State.goto, State.bwrite, recovered, Function.update_self, readHead_writeHead]
    by_cases logged : b ∈ s.lh
    · obtain ⟨i, lookup⟩ := List.getElem?_of_mem logged
      exact replay_of_mem (by rw [map_fst_entries]; exact running.nodup)
        (mem_entries.mpr ⟨i, lookup, written i b lookup⟩) _
    · rw [replay_of_notMem (by rwa [map_fst_entries]),
        Function.update_of_ne (home_ne_start at_home)]
      exact (view_of_clean (running.clean b (pinned ▸ logged)
        (running.unchanged committing b))).symm

theorem Running.installTrans (running : Running start s) (stored : Stored start s)
    (committing : Committing start s p (.installTrans tail)) (found : s.lh[tail]? = some home) :
    Commits start s ((({ s with
      cache := Function.update s.cache (start + tail + 1)
        (some (s.view (start + tail + 1))) }.bwrite home
      (s.view (start + tail + 1))).bunpin home).goto p (.commit (.installTrans (tail + 1)))) p := by
  obtain ⟨head, pinned, -, slots, done⟩ := committing.2.2.2
  obtain ⟨bound, at_tail⟩ := List.getElem?_eq_some_iff.mp found
  have at_home := running.home home (List.mem_of_getElem? found)
  have length := running.length_le
  have apart : home ≠ start := home_ne_start at_home
  have fresh : start + tail + 1 ∉ s.pinned := by
    rw [pinned]
    intro member
    exact home_ne_slot (running.home _ (List.mem_of_mem_drop member)) (bound.trans_le length) rfl
  have copy : s.view (start + tail + 1) = s.view home := by
    rw [view_of_clean (running.clean _ fresh (running.unchanged committing _))]
    exact slots tail home found
  have rest : s.pinned.erase home = s.lh.drop (tail + 1) := by
    rw [pinned, List.drop_eq_getElem_cons bound, at_tail, List.erase_cons_head]
  have mine : home ∈ s.pinned := by
    rw [pinned, List.drop_eq_getElem_cons bound, at_tail]
    exact List.mem_cons_self
  have view : ((({ s with
      cache := Function.update s.cache (start + tail + 1)
        (some (s.view (start + tail + 1))) }.bwrite home
      (s.view (start + tail + 1))).bunpin home).goto p (.commit (.installTrans (tail + 1)))).view =
        s.view := by
    funext c
    by_cases here : c = home
    · rw [here, ← copy]
      simp [State.view, State.goto, State.bunpin, State.bwrite]
    · exact (view_bwrite_of_ne here).trans (congrFun (view_fetch s _) c)
  have covers : Covers (Function.update s.refcnt home (s.refcnt home - 1))
      (Function.update (holders s) none (s.pinned.erase home)) := by
    refine running.covers.move fun c => ?_
    have positive := running.covers.pos none mine
    by_cases here : c = home
    · subst c
      have one : 0 < s.pinned.count home := List.count_pos_iff.mpr mine
      simp only [Function.update_self, List.count_erase_self, holders]
      omega
    · simp [holders, here, List.count_erase_of_ne here]
  rw [← holders_pinned] at covers
  have slot : s.disk (start + tail + 1) = s.view (start + tail + 1) :=
    (slots tail home found).trans copy.symm
  have logs : ∀ i b, s.lh[i]? = some b →
      Function.update s.disk home (s.view (start + tail + 1)) (start + i + 1) =
        s.disk (start + i + 1) := by
    intro i b lookup
    obtain ⟨below, -⟩ := List.getElem?_eq_some_iff.mp lookup
    exact Function.update_of_ne (home_ne_slot at_home (by omega)).symm _ _
  have header : Function.update s.disk home (s.view (start + tail + 1)) start = s.disk start :=
    Function.update_of_ne apart.symm _ _
  obtain ⟨count, reserved⟩ := running.totals committing (.commit (.installTrans (tail + 1))) rfl rfl
  refine ⟨⟨running.nodup, running.home, running.held, fun o b member => ?_, covers,
    fun b outside _ => ?_, fun b after => ?_, count, ?_,
    .inr ⟨p, .installTrans (tail + 1), ?_⟩⟩, ⟨?_, ?_, ?_, ?_⟩,
    fun b _ => congrFun view b, .inl rfl, ⟨_, rfl, rfl⟩, rfl⟩
  · have before : b ∈ holders s o := by
      cases o with
      | none => exact List.mem_of_mem_erase member
      | some q => exact member
    simp only [State.goto, State.bunpin, State.bwrite]
    by_cases here : b = home
    · simp [here]
    · rw [Function.update_of_ne here]
      exact Running.fetched_ne (running.cached o b before)
  · simp only [State.goto, State.bunpin, State.bwrite] at outside ⊢
    by_cases here : b = home
    · simp [here]
    · rw [Function.update_of_ne here, Function.update_of_ne here]
      refine running.fetched (fun member => outside ?_) (running.unchanged committing b)
      exact (List.mem_erase_of_ne here).mpr member
  · simp [State.goto, State.bunpin, State.bwrite, running.unchanged committing b] at after
  · exact (congrArg (s.lh.length + ·) reserved).trans_le running.room
  · refine committing.move committing.1 rfl ⟨(congrArg readHead header).trans head, rest, bound,
      fun i b lookup => ?_, fun i b below lookup => ?_⟩
    · rw [view]
      exact (logs i b lookup).trans (slots i b lookup)
    · rw [view]
      simp only [State.goto, State.bunpin, State.bwrite]
      by_cases here : b = home
      · rw [here, Function.update_self, copy]
      · rw [Function.update_of_ne here]
        refine done i b (by_contra fun last => here ?_) lookup
        obtain rfl : i = tail := by omega
        exact Option.some.inj (lookup.symm.trans found)
  · exact (congrArg readHead header).symm ▸ stored.nodup
  · exact (congrArg readHead header).symm ▸ stored.home
  · exact (congrArg readHead header).symm ▸ stored.fits
  · intro b at_home'
    refine Eq.trans ?_ (stored.durable b at_home')
    simp only [State.goto, State.bunpin, State.bwrite, recovered, header, head]
    have same : entries start (Function.update s.disk home (s.view (start + tail + 1))) s.lh =
        entries start s.disk s.lh := by
      refine List.map_congr_left fun entry member => ?_
      rw [logs entry.2 entry.1 (List.mem_zipIdx_iff_getElem?.mp member)]
    rw [same, ← slot, replay_update (by rw [map_fst_entries]; exact running.nodup)
      (mem_entries.mpr ⟨tail, found, rfl⟩)]

theorem Running.eraseLog (running : Running start s) (stored : Stored start s)
    (committing : Committing start s p (.installTrans tail)) (end_of : s.lh[tail]? = none) :
    Commits start s (({ s with lh := [] }.bwrite start (writeHead [] (s.view start))).goto p
      (.commit .finish)) p := by
  obtain ⟨head, pinned, below, slots, done⟩ := committing.2.2.2
  have length := running.length_le
  rw [List.getElem?_eq_none_iff] at end_of
  have none_pinned : s.pinned = [] := pinned.trans (List.drop_eq_nil_iff.mpr end_of)
  obtain ⟨count, reserved⟩ := running.totals committing (.commit .finish) rfl rfl
  have header : readHead (Function.update s.disk start (writeHead [] (s.view start)) start) = [] := by
    rw [Function.update_self, readHead_writeHead]
  refine ⟨⟨List.nodup_nil, fun b none => absurd none List.not_mem_nil, running.held,
    fun o b member => ?_, running.covers, fun b outside _ => ?_, fun b after => ?_, count, ?_,
    .inr ⟨p, .finish, committing.move committing.1 rfl ⟨header, none_pinned, rfl⟩⟩⟩,
    ⟨?_, ?_, ?_, ?_⟩, fun b at_home => ?_, .inl rfl, ⟨_, rfl, rfl⟩, rfl⟩
  · have before := running.cached o b member
    simp only [State.goto, State.bwrite]
    by_cases here : b = start
    · simp [here]
    · rwa [Function.update_of_ne here]
  · simp only [State.goto, State.bwrite]
    by_cases here : b = start
    · simp [here]
    · rw [Function.update_of_ne here, Function.update_of_ne here]
      exact running.clean b outside (running.unchanged committing b)
  · simp [State.goto, State.bwrite, running.unchanged committing b] at after
  · have room := running.room
    simp only [State.goto, State.bwrite, List.length_nil]
    omega
  · exact header.symm ▸ List.nodup_nil
  · exact header.symm ▸ fun b none => absurd none List.not_mem_nil
  · exact header.symm ▸ Nat.zero_le _
  · intro b at_home
    have kept := stored.durable b at_home
    refine Eq.trans ?_ kept
    simp only [State.goto, State.bwrite]
    rw [recovered_of_empty header, recovered, head, replay_of_done]
    · exact Function.update_of_ne (home_ne_start at_home) _ _
    · rw [map_fst_entries]
      exact running.nodup
    · intro c data member
      obtain ⟨i, lookup, rfl⟩ := mem_entries.mp member
      obtain ⟨bound, -⟩ := List.getElem?_eq_some_iff.mp lookup
      exact (done i c (by omega) lookup).trans (slots i c lookup).symm
  · exact view_bwrite_of_ne (s := { s with lh := [] }) (home_ne_start at_home)

theorem Running.finish (running : Running start s) (stored : Stored start s)
    (committing : Committing start s p .finish) :
    Commits start s ({ s with committing := false }.goto p .user) p := by
  obtain ⟨head, pinned, empty⟩ := committing.2.2.2
  obtain ⟨count, reserved⟩ := running.totals committing .user rfl rfl
  refine ⟨⟨running.nodup, running.home, running.held, running.cached, running.covers,
    running.clean, fun b after => ?_, count, ?_, .inl ⟨rfl, fun q stage => ?_, head,
      pinned.trans empty.symm, fun _ => empty⟩⟩, stored.congr rfl rfl, fun _ _ => rfl, .inl rfl,
    ⟨_, rfl, rfl⟩, rfl⟩
  · have none := running.unchanged committing b
    rw [show s.changed b = true from after] at none
    cases none
  · exact (congrArg (s.lh.length + ·) reserved).trans_le running.room
  · by_cases same : q = p
    · simp [State.goto, same]
    · simp [State.goto, same, committing.2.2.1 q same]

theorem Running.committing (running : Running start s) {stage : Stage}
    (here : s.pc p = .commit stage) : Committing start s p stage := by
  rcases running.phase with ⟨-, nobody, -⟩ | ⟨q, other, committing⟩
  · exact absurd here (nobody p stage)
  · by_cases same : p = q
    · subst q
      obtain rfl : stage = other := Pc.commit.inj (here.symm.trans committing.2.1)
      exact committing
    · rw [committing.2.2.1 p same] at here
      cases here

theorem Running.commit (running : Running start s) (stored : Stored start s)
    (taken : s.commit start p = some t) : Commits start s t p := by
  rw [State.commit] at taken
  split at taken
  · rename_i tail here
    have committing := running.committing here
    split at taken
    · rename_i home found
      split at taken
      · obtain rfl := Option.some.inj taken
        exact running.writeLog stored committing found
      · cases taken
    · rename_i end_of
      split at taken
      · obtain rfl := Option.some.inj taken
        exact running.commitPoint committing end_of
      · cases taken
  · rename_i tail here
    have committing := running.committing here
    split at taken
    · rename_i home found
      split at taken
      · obtain rfl := Option.some.inj taken
        exact running.installTrans stored committing found
      · cases taken
    · rename_i end_of
      split at taken
      · obtain rfl := Option.some.inj taken
        exact running.eraseLog stored committing end_of
      · cases taken
  · rename_i here
    obtain rfl := Option.some.inj taken
    exact running.finish stored (running.committing here)
  · cases taken

end Commit

end OsLab.Kernel.Log
