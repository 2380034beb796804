import OsLab.Kernel.LogSafety
import OsLab.Library.Refinement

/-!
Runs of the log with crashes between any two steps: the invariant of every reachable state, and
the store with atomic transactions that the blocks outside of the log behave as.
-/

namespace OsLab.Kernel.Log

open OsLab.Library

variable {n start : ℕ} {s t : State n}

/-! ### A restart -/

theorem Rebooted.crash (s : State n) : Rebooted s.crash :=
  ⟨fun _ => .inl rfl, fun _ => rfl, fun _ => rfl, rfl, rfl, fun _ => rfl, fun _ => rfl, rfl⟩

theorem Rebooted.view (rebooted : Rebooted s) : s.view = s.disk :=
  funext fun b => view_of_clean (rebooted.cached b)

theorem Rebooted.holders (rebooted : Rebooted s) (o : Option (Fin n)) : holders s o = [] := by
  cases o with
  | none => exact rebooted.pinned
  | some p => exact rebooted.held p

theorem Inv.recovering (stored : Stored start s) (rebooted : Rebooted s) {tail home : ℕ}
    (same : s.lh = readHead (s.disk start))
    (done : ∀ i b, i < tail → s.lh[i]? = some b → s.disk b = s.disk (start + i + 1))
    (found : s.lh[tail]? = some home) :
    Stored start (({ s with
      cache := Function.update s.cache (start + tail + 1)
        (some (s.view (start + tail + 1))) }.bwrite home
      (s.view (start + tail + 1))).enter (.recovering (tail + 1))) ∧
    Phase start (({ s with
      cache := Function.update s.cache (start + tail + 1)
        (some (s.view (start + tail + 1))) }.bwrite home
      (s.view (start + tail + 1))).enter (.recovering (tail + 1))) := by
  have at_home : Home start home := stored.home home (same ▸ List.mem_of_getElem? found)
  have fits := stored.fits
  rw [← same] at fits
  rw [rebooted.view]
  have header : Function.update s.disk home (s.disk (start + tail + 1)) start = s.disk start :=
    Function.update_of_ne (home_ne_start at_home).symm _ _
  have logs : ∀ i b, s.lh[i]? = some b →
      Function.update s.disk home (s.disk (start + tail + 1)) (start + i + 1) =
        s.disk (start + i + 1) := by
    intro i b lookup
    obtain ⟨below, -⟩ := List.getElem?_eq_some_iff.mp lookup
    exact Function.update_of_ne (home_ne_slot at_home (by omega)).symm _ _
  refine ⟨⟨?_, ?_, ?_, fun b at_home' => ?_⟩, ⟨fun b => ?_, rebooted.refcnt, rebooted.held,
    rebooted.outstanding, rebooted.committing, rebooted.pc, rebooted.changed, rebooted.pinned⟩,
    same.trans (congrArg readHead header).symm, fun i b below lookup => ?_⟩
  · exact (congrArg readHead header).symm ▸ stored.nodup
  · exact (congrArg readHead header).symm ▸ stored.home
  · exact (congrArg readHead header).symm ▸ stored.fits
  · refine Eq.trans ?_ (stored.durable b at_home')
    simp only [State.enter, State.bwrite, recovered, header]
    have entries_same : entries start (Function.update s.disk home (s.disk (start + tail + 1)))
        (readHead (s.disk start)) = entries start s.disk (readHead (s.disk start)) := by
      refine List.map_congr_left fun entry member => ?_
      rw [logs entry.2 entry.1 (same ▸ List.mem_zipIdx_iff_getElem?.mp member)]
    rw [entries_same, replay_update (by rw [map_fst_entries]; exact stored.nodup)
      (mem_entries.mpr ⟨tail, same ▸ found, rfl⟩)]
  · simp only [State.enter, State.bwrite]
    by_cases here : b = home
    · simp [here]
    · rw [Function.update_of_ne here, Function.update_of_ne here]
      by_cases slot : b = start + tail + 1
      · simp [slot]
      · rw [Function.update_of_ne slot]
        exact rebooted.cached b
  · simp only [State.enter, State.bwrite] at lookup ⊢
    rw [logs i b lookup]
    by_cases here : b = home
    · obtain ⟨bound, -⟩ := List.getElem?_eq_some_iff.mp lookup
      obtain rfl : i = tail := by
        refine (List.getElem?_inj bound (same ▸ stored.nodup)).mp ?_
        rw [lookup, found, here]
      rw [here, Function.update_self]
    · rw [Function.update_of_ne here]
      refine done i b (by_contra fun last => here ?_) lookup
      obtain rfl : i = tail := by omega
      exact Option.some.inj (lookup.symm.trans found)

theorem Inv.recovered (stored : Stored start s) (rebooted : Rebooted s) {tail : ℕ}
    (same : s.lh = readHead (s.disk start))
    (done : ∀ i b, i < tail → s.lh[i]? = some b → s.disk b = s.disk (start + i + 1))
    (end_of : s.lh[tail]? = none) :
    Stored start (({ s with lh := [] }.bwrite start (writeHead [] (s.view start))).enter .running) ∧
    Phase start (({ s with lh := [] }.bwrite start (writeHead [] (s.view start))).enter .running) := by
  rw [List.getElem?_eq_none_iff] at end_of
  have header : readHead (Function.update s.disk start (writeHead [] (s.view start)) start) = [] := by
    rw [Function.update_self, readHead_writeHead]
  have nobody : ∀ f : Pc → ℕ, f .user = 0 → ∑ p, f (s.pc p) = 0 := by
    intro f zero
    exact Finset.sum_eq_zero fun p _ => by rw [rebooted.pc p, zero]
  refine ⟨⟨?_, ?_, ?_, fun b at_home => ?_⟩, ⟨List.nodup_nil, fun b none => absurd none
    List.not_mem_nil, fun p b member => ?_, fun o b member => ?_, fun b => ?_, fun b _ _ => ?_,
    fun b changed => ?_, rebooted.outstanding.trans (nobody ops rfl).symm, ?_,
    .inl ⟨rebooted.committing, fun p stage here => ?_, header, rebooted.pinned, fun _ => rfl⟩⟩⟩
  · exact header.symm ▸ List.nodup_nil
  · exact header.symm ▸ fun b none => absurd none List.not_mem_nil
  · exact header.symm ▸ Nat.zero_le _
  · have kept := stored.durable b at_home
    refine Eq.trans ?_ kept
    simp only [State.enter, State.bwrite]
    rw [recovered_of_empty header, Log.recovered, ← same, replay_of_done]
    · exact Function.update_of_ne (home_ne_start at_home) _ _
    · rw [map_fst_entries]
      exact same ▸ stored.nodup
    · intro c data member
      obtain ⟨i, lookup, rfl⟩ := mem_entries.mp member
      obtain ⟨bound, -⟩ := List.getElem?_eq_some_iff.mp lookup
      exact done i c (by omega) lookup
  · replace member : b ∈ s.held p := member
    simp [rebooted.held p] at member
  · replace member : b ∈ holders s o := by cases o <;> exact member
    simp [rebooted.holders o] at member
  · have none : ∑ o, (holders s o).count b = 0 :=
      Finset.sum_eq_zero fun o _ => by rw [rebooted.holders o, List.count_nil]
    refine (le_of_eq ?_).trans (none.trans_le (Nat.zero_le _))
    exact Finset.sum_congr rfl fun o _ => by cases o <;> rfl
  · simp only [State.enter, State.bwrite]
    by_cases here : b = start
    · simp [here]
    · rw [Function.update_of_ne here, Function.update_of_ne here]
      exact rebooted.cached b
  · replace changed : s.changed b = true := changed
    simp [rebooted.changed b] at changed
  · exact (Nat.zero_add _).trans_le ((nobody reserve rfl).trans_le (Nat.zero_le _))
  · replace here : s.pc p = .commit stage := here
    simp [rebooted.pc p] at here

theorem Inv.recover (inv : Inv start s) (taken : s.recover start = some t) : Inv start t := by
  obtain ⟨stored, phase, calm⟩ := inv
  rw [State.recover] at taken
  split at taken
  · rename_i mode
    rw [Phase, mode] at phase
    obtain rfl := Option.some.inj taken
    refine ⟨stored.congr rfl rfl, ⟨⟨fun b => ?_, phase.refcnt, phase.held, phase.outstanding,
      phase.committing, phase.pc, phase.changed, phase.pinned⟩, ?_,
      fun i b none => absurd none (Nat.not_lt_zero i)⟩, calm⟩
    · simp only [phase.view]
      by_cases here : b = start
      · simp [here]
      · rw [Function.update_of_ne here]
        exact phase.cached b
    · simp only [phase.view]
  · rename_i tail mode
    rw [Phase, mode] at phase
    obtain ⟨rebooted, same, done⟩ := phase
    split at taken
    · rename_i home found
      obtain rfl := Option.some.inj taken
      obtain ⟨stored', phase'⟩ := Inv.recovering stored rebooted same done found
      exact ⟨stored', phase', calm⟩
    · rename_i end_of
      obtain rfl := Option.some.inj taken
      obtain ⟨stored', phase'⟩ := Inv.recovered stored rebooted same done end_of
      exact ⟨stored', phase', calm⟩
  · cases taken

theorem Inv.crash (inv : Inv start s) : Inv start s.crash :=
  ⟨inv.stored.congr rfl rfl, Rebooted.crash s, .inl rfl⟩

theorem Inv.formatted (formatted : Formatted start s) : Inv start s := by
  have empty : readHead (s.disk start) = [] := readHead_zero formatted.empty
  have mode : s.mode = .initlog := congrArg State.mode formatted.off
  have rebooted : Rebooted s := by
    rw [formatted.off]
    exact Rebooted.crash s
  refine ⟨⟨empty ▸ List.nodup_nil, empty ▸ fun b none => absurd none List.not_mem_nil,
    empty ▸ Nat.zero_le _, fun b _ => ?_⟩, ?_, .inl (congrArg State.panic formatted.off)⟩
  · rw [recovered_of_empty empty, formatted.committed]
  · rw [Phase, mode]
    exact rebooted

/-! ### Every step -/

theorem step_bread {p : Fin n} {b : ℕ} (taken : step start s (.bread p b) = some t) :
    t = s.exhaust ∨ s.bread p b = some t := by
  simp only [step] at taken
  split at taken
  · split at taken
    · exact .inl (Option.some.inj taken).symm
    · exact .inr taken
  · cases taken

theorem step_commit {p : Fin n} (taken : step start s (.commit p) = some t) :
    t = s.exhaust ∧ s.lacks (s.blocks start p) = true ∨
      s.lacks (s.blocks start p) = false ∧ s.commit start p = some t := by
  simp only [step] at taken
  split at taken
  · split at taken
    · exact .inl ⟨(Option.some.inj taken).symm, by assumption⟩
    · exact .inr ⟨Bool.eq_false_iff.mpr (by assumption), taken⟩
  · cases taken

theorem running_iff : s.running = true ↔ s.mode = .running ∧ s.panic = none := by
  simp [State.running]

theorem step_running {label : Label n} (taken : step start s label = some t) :
    label = .recover ∨ label = .crash ∨ s.running = true := by
  cases label
  case recover => exact .inl rfl
  case crash => exact .inr (.inl rfl)
  all_goals
    simp only [step] at taken
    split at taken
    · rename_i on
      exact .inr (.inr on)
    · cases taken

theorem step_frame {label : Label n} (taken : step start s label = some t)
    (served : t ≠ s.exhaust) :
    label = .recover ∨ label = .crash ∨ t.mode = s.mode ∧
      ((∃ p b, label = .logWrite p b) ∨ (∃ p, label = .endOp p) ∨ t.panic = s.panic) ∧
      ((∃ p, label = .commit p) ∨ t.disk = s.disk ∧ t.committed = s.committed) := by
  cases label
  case recover => exact .inl rfl
  case crash => exact .inr (.inl rfl)
  case bread p b =>
    replace taken := (step_bread taken).resolve_left served
    rw [State.bread] at taken
    split at taken
    · obtain rfl := Option.some.inj taken
      exact .inr (.inr ⟨rfl, .inr (.inr rfl), .inr ⟨rfl, rfl⟩⟩)
    · cases taken
  case commit p =>
    obtain ⟨-, taken⟩ := (step_commit taken).resolve_left fun stopped => served stopped.1
    rw [State.commit] at taken
    repeat' split at taken
    all_goals first
      | (obtain rfl := Option.some.inj taken; exact .inr (.inr ⟨rfl, .inr (.inr rfl), .inl ⟨_, rfl⟩⟩))
      | cases taken
  all_goals
    simp only [step] at taken
    split at taken
    · refine .inr (.inr ?_)
      simp only [State.beginOp, State.modify, State.logWrite, State.brelse, State.endOp,
        State.evict] at taken
      repeat' split at taken
      all_goals first
        | (obtain rfl := Option.some.inj taken; exact ⟨rfl, .inr (.inr rfl), .inr ⟨rfl, rfl⟩⟩)
        | (obtain rfl := Option.some.inj taken; exact ⟨rfl, .inl ⟨_, _, rfl⟩, .inr ⟨rfl, rfl⟩⟩)
        | (obtain rfl := Option.some.inj taken; exact ⟨rfl, .inr (.inl ⟨_, rfl⟩), .inr ⟨rfl, rfl⟩⟩)
        | cases taken
    · cases taken

theorem Running.inv (running : Running start t) (stored : Stored start t) (mode : t.mode = .running)
    (calm : t.panic = none ∨ t.panic = some .noBuffers) : Inv start t := by
  refine ⟨stored, ?_, calm⟩
  rw [Phase, mode]
  exact running

theorem Inv.running (inv : Inv start s) (mode : s.mode = .running) : Running start s := by
  have phase := inv.phase
  rwa [Phase, mode] at phase

theorem Running.exhaust (running : Running start s) : Running start s.exhaust :=
  ⟨running.nodup, running.home, running.held, running.cached, running.covers, running.clean,
    running.changed, running.count, running.room, running.phase⟩

theorem Inv.step {label : Label n} (inv : Inv start s) (disciplined : Disciplined start s label)
    (taken : Log.step start s label = some t) : Inv start t := by
  rcases step_running taken with rfl | rfl | running
  · exact inv.recover taken
  · obtain rfl := Option.some.inj taken
    exact inv.crash
  obtain ⟨on, calm⟩ := running_iff.mp running
  replace running := inv.running on
  by_cases served : t = s.exhaust
  · subst served
    exact running.exhaust.inv (inv.stored.congr rfl rfl) on (.inr rfl)
  rcases step_frame taken served with rfl | rfl | ⟨mode, panic, store⟩
  · exact inv.recover taken
  · obtain rfl := Option.some.inj taken
    exact inv.crash
  rw [on] at mode
  cases label with
  | recover => exact inv.recover taken
  | crash =>
      obtain rfl := Option.some.inj taken
      exact inv.crash
  | commit p =>
      obtain ⟨-, taken⟩ := (step_commit taken).resolve_left fun stopped => served stopped.1
      have commits := running.commit inv.stored taken
      exact commits.running.inv commits.stored mode (.inl (commits.panic.trans calm))
  | bread p b =>
      replace taken := (step_bread taken).resolve_left served
      obtain ⟨disk, committed⟩ := store.resolve_left (by simp)
      have same := (panic.resolve_left (by simp)).resolve_left (by simp)
      exact (running.bread disciplined taken).inv (inv.stored.congr disk committed) mode
        (.inl (same.trans calm))
  | logWrite p b =>
      simp only [Log.step] at taken
      split at taken
      · obtain ⟨after, same⟩ := running.logWrite disciplined taken
        obtain ⟨disk, committed⟩ := store.resolve_left (by simp)
        exact after.inv (inv.stored.congr disk committed) mode (.inl (same.trans calm))
      · cases taken
  | endOp p =>
      simp only [Log.step] at taken
      split at taken
      · obtain ⟨after, same⟩ := running.endOp disciplined taken
        obtain ⟨disk, committed⟩ := store.resolve_left (by simp)
        exact after.inv (inv.stored.congr disk committed) mode (.inl (same.trans calm))
      · cases taken
  | _ =>
      obtain ⟨disk, committed⟩ := store.resolve_left (by simp)
      have same := (panic.resolve_left (by simp)).resolve_left (by simp)
      refine Running.inv ?_ (inv.stored.congr disk committed) mode (.inl (same.trans calm))
      simp only [Log.step] at taken
      split at taken
      · first
          | exact running.beginOp taken
          | exact running.modify taken
          | exact running.brelse disciplined taken
          | exact running.evict taken
      · cases taken

theorem reachable_inv (reachable : (disciplined n start).Reachable s) : Inv start s :=
  reachable.invariant (fun _ formatted => .formatted formatted)
    fun _ _ _ inv taken => inv.step taken.1 taken.2

/-! ### What a crash leaves -/

theorem Committing.no_op {p : Fin n} {stage : Stage} (committing : Committing start s p stage) :
    ∀ q used, s.pc q ≠ .op used := by
  intro q used here
  by_cases same : q = p
  · rw [same, committing.2.1] at here
    cases here
  · rw [committing.2.2.1 q same] at here
    cases here

theorem State.commit_pc {p : Fin n} (taken : s.commit start p = some t) :
    ∃ stage, s.pc p = .commit stage := by
  cases here : s.pc p with
  | commit stage => exact ⟨stage, rfl⟩
  | _ => simp [State.commit, here] at taken

theorem step_committed {label : Label n} (inv : Inv start s)
    (taken : step start s label = some t) : t.committed = s.committed ∨
      s.running = true ∧ t.committed = s.view ∧ ∀ p used, s.pc p ≠ .op used := by
  by_cases served : t = s.exhaust
  · exact .inl (served ▸ rfl)
  rcases step_frame taken served with rfl | rfl | ⟨-, -, ⟨p, rfl⟩ | ⟨-, same⟩⟩
  · simp only [step, State.recover] at taken
    repeat' split at taken
    all_goals first
      | (obtain rfl := Option.some.inj taken; exact .inl rfl)
      | cases taken
  · obtain rfl := Option.some.inj taken
    exact .inl rfl
  · have on := ((step_running taken).resolve_left (by simp)).resolve_left (by simp)
    obtain ⟨-, taken⟩ := (step_commit taken).resolve_left fun stopped => served stopped.1
    obtain ⟨stage, here⟩ := State.commit_pc taken
    have running := inv.running (running_iff.mp on).1
    exact (running.commit inv.stored taken).committed.imp id fun now =>
      ⟨on, now, (running.committing here).no_op⟩
  · exact .inl same

theorem Running.durable (running : Running start s) (quiet : ∀ p, s.pc p = .user) (b : ℕ) :
    recovered start s.disk b = s.view b := by
  have nobody : ∑ p, ops (s.pc p) = 0 := Finset.sum_eq_zero fun p _ => by rw [quiet p, ops_user]
  have clean : s.changed b = false := by
    by_contra changed
    rw [Bool.not_eq_false] at changed
    obtain ⟨p, used, -, here⟩ := running.changed b changed
    rw [quiet p] at here
    cases here
  rcases running.phase with ⟨-, -, head, pinned, empty⟩ | ⟨p, stage, -, here, -⟩
  · have none : s.pinned = [] := pinned.trans (empty (running.count.trans nobody))
    rw [recovered_of_empty head]
    refine (view_of_clean (running.clean b ?_ clean)).symm
    rw [none]
    exact List.not_mem_nil
  · rw [quiet p] at here
    cases here

def blank (n : ℕ) : State n where
  disk := fun _ _ => 0
  cache := fun _ => none
  refcnt := fun _ => 0
  held := fun _ => []
  lh := []
  outstanding := 0
  committing := false
  pc := fun _ => .user
  mode := .initlog
  panic := none
  changed := fun _ => false
  pinned := []
  committed := fun _ _ => 0

theorem blank_formatted : Formatted start (blank n) := ⟨rfl, rfl, rfl⟩

def committed (p : Fin n) : List (Label n) :=
  [.recover, .recover, .beginOp p, .bread p 50, .modify p 50 fun _ => 7, .logWrite p 50,
    .brelse p 50, .endOp p, .commit p, .commit p]

theorem sound (before : State n) (label : Label n) (after : State n)
    (taken : System.guard (Disciplined start) (step start) before label = some after) :
    (disciplined n start).step before label after :=
  @System.guard_sound _ _ (system n start) _ _ _ (fun _ _ _ taken => taken) before label after taken

/-! ### Recovery -/

/-- A restart comes to its end, and leaves these blocks. -/
def Recovers (start : ℕ) (s : State n) (content : { b // Home start b } → Block) : Prop :=
  ∃ steps t, (disciplined n start).Run s (.crash :: List.replicate steps .recover) t ∧
    t.running = true ∧ readHead (t.disk start) = [] ∧
    ∀ b : { b // Home start b }, t.disk b = content b ∧ t.view b = content b

def unrecovered (start : ℕ) (s : State n) : ℕ :=
  match s.mode with
  | .initlog => (readHead (s.view start)).length + 2
  | .recovering tail => s.lh.length - tail + 1
  | .running => 0

theorem recover_frame (taken : s.recover start = some t) : s.mode ≠ .running ∧
    t.committed = s.committed ∧ t.pc = s.pc ∧ t.panic = s.panic ∧
    unrecovered start t < unrecovered start s := by
  rw [State.recover] at taken
  split at taken
  · rename_i mode
    obtain rfl := Option.some.inj taken
    refine ⟨by simp [mode], rfl, rfl, rfl, ?_⟩
    simp only [unrecovered, mode]
    omega
  · rename_i tail mode
    split at taken
    · rename_i home found
      have below := (List.getElem?_eq_some_iff.mp found).1
      obtain rfl := Option.some.inj taken
      refine ⟨by simp [mode], rfl, rfl, rfl, ?_⟩
      simp only [unrecovered, mode, State.enter, State.bwrite]
      omega
    · obtain rfl := Option.some.inj taken
      refine ⟨by simp [mode], rfl, rfl, rfl, ?_⟩
      simp only [unrecovered, mode, State.enter]
      omega
  · cases taken

theorem recover_defined (off : s.mode ≠ .running) : ∃ t, s.recover start = some t := by
  rw [State.recover]
  split
  · exact ⟨_, rfl⟩
  · split <;> exact ⟨_, rfl⟩
  · exact absurd ‹_› off

theorem recovery_ends (reachable : (disciplined n start).Reachable s) :
    ∃ steps t, (disciplined n start).Run s (List.replicate steps .recover) t ∧
      t.mode = .running ∧ t.committed = s.committed ∧ t.pc = s.pc ∧ t.panic = s.panic := by
  induction bound : unrecovered start s using Nat.strong_induction_on generalizing s with
  | _ left ih =>
      by_cases on : s.mode = .running
      · exact ⟨0, s, .nil s, on, rfl, rfl, rfl⟩
      obtain ⟨t, taken⟩ := @recover_defined n start s on
      obtain ⟨-, committed, pc, panic, fewer⟩ := recover_frame taken
      have step : (disciplined n start).step s .recover t := ⟨trivial, taken⟩
      obtain ⟨steps, u, run, running, committed', pc', panic'⟩ :=
        ih _ (bound ▸ fewer) (.step reachable step) rfl
      exact ⟨steps + 1, u, .cons step run, running, committed'.trans committed, pc'.trans pc,
        panic'.trans panic⟩

theorem Running.settled (running : Running start s) (stored : Stored start s)
    (quiet : ∀ p, s.pc p = .user) : readHead (s.disk start) = [] ∧
      ∀ b, Home start b → s.disk b = s.committed b ∧ s.view b = s.committed b := by
  have head : readHead (s.disk start) = [] := by
    rcases running.phase with idle | ⟨p, stage, committing⟩
    · exact idle.2.2.1
    · have here := committing.2.1
      rw [quiet p] at here
      cases here
  refine ⟨head, fun b at_home => ?_⟩
  have kept := stored.durable b at_home
  exact ⟨(congrFun (recovered_of_empty head) b).symm.trans kept,
    (running.durable quiet b).symm.trans kept⟩

theorem recovers (reachable : (disciplined n start).Reachable s) :
    Recovers start s fun b => s.committed b := by
  have crashed : (disciplined n start).step s .crash s.crash := ⟨trivial, rfl⟩
  have restarted : (disciplined n start).Reachable s.crash := .step reachable crashed
  obtain ⟨steps, t, run, on, committed, pc, calm⟩ := recovery_ends restarted
  have inv := reachable_inv (run.reachable restarted)
  obtain ⟨head, same⟩ := (inv.running on).settled inv.stored fun p => congrFun pc p
  refine ⟨steps, t, .cons crashed run, running_iff.mpr ⟨on, calm⟩, head, fun b => ?_⟩
  rw [← show t.committed = s.committed from committed]
  exact same b b.2

/-- A restart after any step, also of a restart, gives the blocks of the file system as they were
at a moment of the run when no system call was between `begin_op` and `end_op`. -/
theorem crash_atomic (reachable : (disciplined n start).Reachable s) :
    (∃ u labels, (disciplined n start).Reachable u ∧ (u.running = true ∨ Formatted start u) ∧
      (disciplined n start).Run u labels s ∧ (∀ p used, u.pc p ≠ .op used) ∧
      Recovers start s fun b => u.view b) ∧
    (s.mode = .running → (∀ p, s.pc p = .user) → Recovers start s fun b => s.view b) := by
  have last : ∃ u labels, (disciplined n start).Reachable u ∧
      (u.running = true ∨ Formatted start u) ∧ (disciplined n start).Run u labels s ∧
      (∀ p used, u.pc p ≠ .op used) ∧ s.committed = u.view := by
    induction reachable with
    | @start s formatted =>
        have rebooted : Rebooted s := formatted.off ▸ Rebooted.crash s
        refine ⟨s, [], .start formatted, .inr formatted, .nil s, fun p used here => ?_, ?_⟩
        · rw [rebooted.pc p] at here
          cases here
        · rw [formatted.committed, rebooted.view]
    | @step s label t earlier taken ih =>
        rcases step_committed (reachable_inv earlier) taken.2 with same | ⟨on, now, nobody⟩
        · obtain ⟨u, labels, reached, moment, run, nobody, found⟩ := ih
          exact ⟨u, labels ++ [label], reached, moment, run.snoc taken, nobody, same.trans found⟩
        · exact ⟨s, [label], earlier, .inl on, .cons taken (.nil t), nobody, now⟩
  refine ⟨?_, fun mode quiet => ?_⟩
  · obtain ⟨u, labels, reached, moment, run, nobody, found⟩ := last
    exact ⟨u, labels, reached, moment, run, nobody, found ▸ recovers reachable⟩
  · have inv := reachable_inv reachable
    obtain ⟨-, same⟩ := (inv.running mode).settled inv.stored quiet
    obtain ⟨steps, t, run, on, head, found⟩ := recovers reachable
    refine ⟨steps, t, run, on, head, fun b => ?_⟩
    have now : s.view b = s.committed b := (same b b.2).2
    exact ⟨(found b).1.trans now.symm, (found b).2.trans now.symm⟩

/-- A crash right after the commit point: the disk has the new block only after recovery. -/
theorem crash_atomic_committed : ∃ s t u labels, (disciplined 1 2).Run (blank 1) (committed 0) s ∧
    s.disk 50 0 = 0 ∧ (disciplined 1 2).Run s [.crash, .recover, .recover, .recover] t ∧
    t.running = true ∧ t.disk 50 0 = 7 ∧
    (disciplined 1 2).Run u labels s ∧ (∀ p used, u.pc p ≠ .op used) ∧
    Recovers 2 s fun b => u.view b := by
  obtain ⟨s, run, ends⟩ := System.Run.existsOfExecute (@sound 1 2)
    (show (System.execute _ (blank 1) (committed 0)).map (fun s => (s.disk 50 0,
      (System.execute (System.guard (Disciplined 2) (step 2)) s
        [.crash, .recover, .recover, .recover]).map fun t => (t.running, t.disk 50 0))) =
          some (0, some (true, 7)) by decide)
  obtain ⟨old, rest⟩ := Prod.mk.inj ends
  obtain ⟨t, recovery, new⟩ := System.Run.existsOfExecute (@sound 1 2) rest
  obtain ⟨on, new⟩ := Prod.mk.inj new
  obtain ⟨⟨u, labels, -, -, from_u, nobody, same⟩, -⟩ :=
    crash_atomic (run.reachable (.start blank_formatted))
  exact ⟨s, t, u, labels, run, old, recovery, on, new, from_u, nobody, same⟩

/-! ### The store that the file system sees -/

/-- What is read now, what a crash goes back to, and who is in a system call. -/
structure Store (n start : ℕ) where
  volatile : { b // Home start b } → Block
  durable : { b // Home start b } → Block
  active : Fin n → Bool

inductive Event (n start : ℕ)
  | begin (p : Fin n)
  | write (p : Fin n) (b : { b // Home start b }) (data : Block)
  | finish (p : Fin n)
  | sync
  | crash

def Store.step (a : Store n start) : Event n start → Store n start → Prop
  | .begin p, c => a.active p = false ∧ c = { a with active := Function.update a.active p true }
  | .write p b data, c =>
      a.active p = true ∧ c = { a with volatile := Function.update a.volatile b data }
  | .finish p, c => a.active p = true ∧ c = { a with active := Function.update a.active p false }
  | .sync, c => (∀ p, a.active p = false) ∧ c = { a with durable := a.volatile }
  | .crash, c => c = ⟨a.durable, a.durable, fun _ => false⟩

def transactions (n start : ℕ) : System (Store n start) (Event n start) where
  init a := a.volatile = a.durable ∧ ∀ p, a.active p = false
  step a event c := a.step event c

def Pc.active : Pc → Bool
  | .op _ => true
  | _ => false

/-- Until the log is recovered nobody reads a block. -/
def store (start : ℕ) (s : State n) : Store n start where
  volatile b := if s.mode = .running then s.view b else s.committed b
  durable b := s.committed b
  active p := (s.pc p).active

def event (start : ℕ) (s : State n) : Label n → Option (Event n start)
  | .beginOp p => some (.begin p)
  | .modify p b data => if home : Home start b then some (.write p ⟨b, home⟩ data) else none
  | .endOp p => some (.finish p)
  | .commit p =>
      match s.pc p with
      | .commit (.writeLog tail) =>
          if s.lh[tail]? = none ∧ s.lacks (s.blocks start p) = false then some .sync else none
      | _ => none
  | .crash => some .crash
  | _ => none

theorem store_congr (mode : t.mode = s.mode) (view : ∀ b, Home start b → t.view b = s.view b)
    (committed : t.committed = s.committed) (active : ∀ p, (t.pc p).active = (s.pc p).active) :
    store start t = store start s := by
  simp only [store, mode, committed, active, Store.mk.injEq, and_true]
  funext b
  rw [view b b.2]

theorem active_goto (p : Fin n) (next : Pc) :
    (fun q => (Function.update s.pc p next q).active) =
      Function.update (fun q => (s.pc q).active) p next.active := by
  funext q
  by_cases same : q = p
  · subst q
    simp
  · simp [same]

theorem Inv.rebooted (inv : Inv start s) (mode : s.mode ≠ .running) : Rebooted s := by
  have phase := inv.phase
  rw [Phase] at phase
  split at phase
  · exact phase
  · exact phase.1
  · exact absurd ‹_› mode

theorem store_recover (inv : Inv start s) (taken : s.recover start = some t) :
    store start t = store start s := by
  have after := inv.recover taken
  obtain ⟨mode, committed, pc, -⟩ := recover_frame taken
  have quiet : ∀ p, t.pc p = .user := fun p => (congrFun pc p).trans ((inv.rebooted mode).pc p)
  simp only [store, mode, if_false, committed, pc, Store.mk.injEq, and_true]
  funext b
  split
  · rename_i on
    rw [← (after.running on).durable quiet b, after.stored.durable b b.2, committed]
  · rfl

theorem State.commit_mode {p : Fin n} (taken : s.commit start p = some t) : t.mode = s.mode := by
  rw [State.commit] at taken
  repeat' split at taken
  all_goals first
    | (obtain rfl := Option.some.inj taken; rfl)
    | cases taken

theorem shows_commit {p : Fin n} (inv : Inv start s) (on : s.mode = .running)
    (enough : s.lacks (s.blocks start p) = false) (taken : s.commit start p = some t) :
    Shows (transactions n start) (store start s) (event start s (.commit p)) (store start t) := by
  have mode := State.commit_mode taken
  have running := inv.running on
  have commits := running.commit inv.stored taken
  have nobody : ∀ stage, s.pc p = .commit stage → ∀ q, (s.pc q).active = false := by
    intro stage here q
    cases there : s.pc q with
    | op used => exact absurd there ((running.committing here).no_op q used)
    | _ => rfl
  have active : ∀ q, (t.pc q).active = (s.pc q).active := by
    obtain ⟨stage, here⟩ := State.commit_pc taken
    obtain ⟨next, pc, none⟩ := commits.pc
    intro q
    rw [nobody stage here q, pc]
    by_cases same : q = p
    · rw [same, Function.update_self]
      cases next with
      | op used => simp at none
      | _ => rfl
    · rw [Function.update_of_ne same]
      exact nobody stage here q
  have congr : t.committed = s.committed → store start t = store start s :=
    fun committed => store_congr mode commits.view committed active
  rw [State.commit] at taken
  split at taken
  · rename_i tail here
    split at taken
    · rename_i home found
      split at taken
      · obtain rfl := Option.some.inj taken
        simp only [event, here, found, reduceCtorEq, false_and, if_false]
        exact congr rfl
      · cases taken
    · rename_i end_of
      split at taken
      · have view := commits.view
        obtain rfl := Option.some.inj taken
        simp only [event, here, end_of, enough, and_self, if_true]
        refine ⟨nobody _ here, ?_⟩
        simp only [store, on, if_true, Store.mk.injEq]
        exact ⟨funext fun b => view b b.2, rfl, funext active⟩
      · cases taken
  · rename_i tail here
    simp only [event, here]
    split at taken
    · split at taken
      · obtain rfl := Option.some.inj taken
        exact congr rfl
      · cases taken
    · split at taken
      · obtain rfl := Option.some.inj taken
        exact congr rfl
      · cases taken
  · rename_i here
    simp only [event, here]
    obtain rfl := Option.some.inj taken
    exact congr rfl
  · cases taken

theorem shows_beginOp {p : Fin n} (taken : s.beginOp p = some t) :
    Shows (transactions n start) (store start s) (some (.begin p)) (store start t) := by
  rw [State.beginOp] at taken
  split at taken
  · cases taken
  rename_i here
  repeat' split at taken
  all_goals first
    | cases taken; done
    | obtain rfl := Option.some.inj taken
  rw [ne_eq, not_not] at here
  refine ⟨by simp [store, here, Pc.active], ?_⟩
  simp only [store, Store.mk.injEq]
  exact ⟨rfl, rfl, active_goto p (.op 0)⟩

theorem shows_modify {p : Fin n} {b : ℕ} {data : Block} (running : Running start s)
    (on : s.mode = .running) (taken : s.modify p b data = some t) :
    Shows (transactions n start) (store start s) (event start s (.modify p b data))
      (store start t) := by
  rw [State.modify] at taken
  split at taken
  · rename_i used here
    split at taken
    · rename_i mine
      obtain rfl := Option.some.inj taken
      have home := running.held p b mine
      simp only [event, home, dif_pos]
      refine ⟨by simp [store, here, Pc.active], ?_⟩
      simp only [store, on, if_true, Store.mk.injEq, and_true]
      funext c
      by_cases same : c = ⟨b, home⟩
      · subst c
        simp [State.view]
      · have other : (c : ℕ) ≠ b := fun equal => same (Subtype.ext equal)
        simp [State.view, same, other]
    · cases taken
  · cases taken

theorem shows_endOp {p : Fin n} (running : Running start s) (taken : s.endOp p = some t) :
    Shows (transactions n start) (store start s) (some (.finish p)) (store start t) := by
  rw [State.endOp] at taken
  split at taken
  · rename_i used here
    obtain ⟨quiet, -⟩ := running.idle here
    rw [if_neg (by simp [quiet])] at taken
    have finish : ∀ next : Pc, next.active = false →
        (fun q => (Function.update s.pc p next q).active) =
          Function.update (fun q => (s.pc q).active) p false := by
      intro next off
      rw [active_goto, off]
    refine ⟨by simp [store, here, Pc.active], ?_⟩
    split at taken
    all_goals
      obtain rfl := Option.some.inj taken
      simp only [store, Store.mk.injEq]
      exact ⟨rfl, rfl, finish _ rfl⟩
  · cases taken

theorem store_logWrite {p : Fin n} {b : ℕ} (taken : s.logWrite p b = some t) :
    store start t = store start s := by
  rw [State.logWrite] at taken
  split at taken
  · rename_i used here
    split at taken
    · cases taken
    repeat' split at taken
    all_goals obtain rfl := Option.some.inj taken
    · rfl
    · rfl
    · rfl
    · refine store_congr rfl (fun _ _ => rfl) rfl fun q => ?_
      have active := congrFun (active_goto (s := s) p (.op (used + 1))) q
      refine active.trans ?_
      by_cases same : q = p
      · simp [same, here, Pc.active]
      · simp [same]
  · cases taken

theorem store_buffers {b : ℕ} (running : Running start s)
    (taken : (∃ p, s.bread p b = some t ∨ s.brelse p b = some t) ∨ s.evict b = some t) :
    store start t = store start s := by
  rcases taken with ⟨p, taken | taken⟩ | taken
  · rw [State.bread] at taken
    split at taken
    · obtain rfl := Option.some.inj taken
      exact store_congr rfl (fun c _ => congrFun (view_fetch s b) c) rfl fun _ => rfl
    · cases taken
  · rw [State.brelse] at taken
    split at taken
    · obtain rfl := Option.some.inj taken
      rfl
    · cases taken
  · rw [State.evict] at taken
    split at taken
    · rename_i unused
      obtain rfl := Option.some.inj taken
      exact store_congr rfl (fun c _ => congrFun (running.view_evict unused) c) rfl fun _ => rfl
    · cases taken

theorem shows_step {label : Label n} (inv : Inv start s)
    (taken : step start s label = some t) :
    Shows (transactions n start) (store start s) (event start s label) (store start t) := by
  have crashed : Shows (transactions n start) (store start s) (event start s .crash)
      (store start s.crash) := by
    simp [Shows, event, transactions, Store.step, store, State.crash, Pc.active]
  rcases step_running taken with rfl | rfl | on
  · exact store_recover inv taken
  · exact Option.some.inj taken ▸ crashed
  replace on := (running_iff.mp on).1
  have running := inv.running on
  cases label with
  | recover => exact store_recover inv taken
  | crash => exact Option.some.inj taken ▸ crashed
  | commit p =>
      rcases step_commit taken with ⟨rfl, lacks⟩ | ⟨enough, taken⟩
      · have hidden : event start s (.commit p) = none := by
          simp only [event, lacks]
          split <;> simp
        rw [hidden]
        rfl
      · exact shows_commit inv on enough taken
  | bread p b =>
      rcases step_bread taken with rfl | taken
      · rfl
      · exact store_buffers running (.inl ⟨_, .inl taken⟩)
  | modify p b data =>
      simp only [step] at taken
      split at taken
      · exact shows_modify running on taken
      · cases taken
  | _ =>
      simp only [step] at taken
      split at taken
      · first
          | exact shows_beginOp taken
          | exact shows_endOp running taken
          | exact store_logWrite taken
          | exact store_buffers running (.inl ⟨_, .inr taken⟩)
          | exact store_buffers running (.inr taken)
      · cases taken

theorem refines : Refines (disciplined n start) (transactions n start) (store start)
    (event start) where
  init state formatted := by
    have rebooted : Rebooted state := formatted.off ▸ Rebooted.crash state
    have mode : state.mode = .initlog := congrArg State.mode formatted.off
    exact ⟨by simp [store, mode], fun p => by simp [store, rebooted.pc p, Pc.active]⟩
  step _ _ _ reachable taken := shows_step (reachable_inv reachable) taken.2

/-- Every step shows its event of the store with atomic transactions, or nothing, and a restart
after any step leaves what is durable there. -/
theorem log_refines : Refines (disciplined n start) (transactions n start) (store start)
      (event start) ∧
    ∀ s, (disciplined n start).Reachable s → Recovers start s (store start s).durable :=
  ⟨refines, fun _ reachable => recovers reachable⟩

/-- The commit of the one call is the step that makes its block durable. -/
theorem log_refines_committed : ∃ s events, (disciplined 1 2).Run (blank 1) (committed 0) s ∧
    Seen (disciplined 1 2) (event 2) (blank 1) (committed 0) events s ∧
    (transactions 1 2).Run (store 2 (blank 1)) events (store 2 s) ∧
    (store 2 s).durable ⟨50, by decide⟩ 0 = 7 ∧ Recovers 2 s (store 2 s).durable := by
  obtain ⟨s, run, ends⟩ := System.Run.existsOfExecute (@sound 1 2)
    (show (System.execute _ (blank 1) (committed 0)).map (fun s =>
      (store 2 s).durable ⟨50, by decide⟩ 0) = some 7 by decide)
  have reachable : (disciplined 1 2).Reachable (blank 1) := .start blank_formatted
  obtain ⟨refines, restarts⟩ := @log_refines 1 2
  obtain ⟨events, seen, shown⟩ := refines.run reachable run
  exact ⟨s, events, run, seen, shown, ends, restarts s (run.reachable reachable)⟩

/-! ### Waiting for the log -/

def remaining (s : State n) : Stage → ℕ
  | .writeLog tail => 2 * s.lh.length + 3 - tail
  | .installTrans tail => s.lh.length + 2 - tail
  | .finish => 1

theorem Idle.beginOp {q : Fin n} (running : Running start s) (idle : Idle start s)
    (nobody : ∀ p used, s.pc p ≠ .op used) : ∃ u, s.beginOp q = some u := by
  have user : ∀ p, s.pc p = .user := by
    intro p
    cases here : s.pc p with
    | user => rfl
    | op used => exact absurd here (nobody p used)
    | commit stage => exact absurd here (idle.2.1 p stage)
  have none : s.outstanding = 0 := by
    rw [running.count]
    exact Finset.sum_eq_zero fun p _ => by rw [user p, ops_user]
  have empty := idle.2.2.2.2 none
  rw [State.beginOp, if_neg (by simp [user q]), if_neg (by simp [idle.1]),
    if_neg (by simp [none, empty, MAXOPBLOCKS, LOGBLOCKS])]
  exact ⟨_, rfl⟩

theorem Committing.blocks {p : Fin n} {stage : Stage} (committing : Committing start s p stage) :
    s.pinned.length ≤ s.lh.length ∧ ∃ b, ∀ c ∈ s.blocks start p, c = b ∨ c ∈ s.pinned := by
  obtain ⟨-, here, -, ok⟩ := committing
  have fetches : ∀ tail, (∀ home, s.lh[tail]? = some home → home ∈ s.pinned) →
      ∃ b, ∀ c ∈ s.entryBlocks start tail, c = b ∨ c ∈ s.pinned := by
    intro tail pinned
    cases found : s.lh[tail]? with
    | some home => exact ⟨start + tail + 1, by simp [State.entryBlocks, found, pinned home found]⟩
    | none => exact ⟨start, by simp [State.entryBlocks, found]⟩
  cases stage with
  | writeLog tail =>
      obtain ⟨-, pinned, -⟩ := ok
      refine ⟨by rw [pinned], ?_⟩
      simp only [State.blocks, here]
      exact fetches tail fun home found => pinned ▸ List.mem_of_getElem? found
  | installTrans tail =>
      obtain ⟨-, pinned, -⟩ := ok
      refine ⟨by rw [pinned, List.length_drop]; omega, ?_⟩
      simp only [State.blocks, here]
      refine fetches tail fun home found => ?_
      obtain ⟨bound, at_tail⟩ := List.getElem?_eq_some_iff.mp found
      rw [pinned, List.drop_eq_getElem_cons bound, at_tail]
      exact List.mem_cons_self
  | finish =>
      obtain ⟨-, pinned, -⟩ := ok
      refine ⟨by simp [pinned], 0, ?_⟩
      simp [State.blocks, here]

theorem Committing.enough {p : Fin n} {stage : Stage} (committing : Committing start s p stage)
    (free : ∀ q, s.held q = []) (room : s.lh.length < NBUF) :
    s.lacks (s.blocks start p) = false := by
  obtain ⟨fewer, b, needed⟩ := committing.blocks
  have inside : s.inUse ∪ (s.blocks start p).toFinset ⊆ insert b s.pinned.toFinset := by
    intro c member
    rcases Finset.mem_union.mp member with used | fetched
    · simp [State.inUse, free] at used
      simp [used]
    · simpa using needed c (List.mem_toFinset.mp fetched)
  have bound := (Finset.card_le_card inside).trans (Finset.card_insert_le b _)
  have distinct := s.pinned.toFinset_card_le
  simp only [State.lacks, decide_eq_false_iff_not]
  omega

/-- A transaction of as many blocks as there are buffers cannot be written to the log. -/
theorem Committing.lacks {p : Fin n} {tail : ℕ} (running : Running start s)
    (committing : Committing start s p (.writeLog tail)) (full : s.lh.length = NBUF) :
    s.lacks (s.blocks start p) = true := by
  obtain ⟨-, here, -, -, pinned, bound, -⟩ := committing
  obtain ⟨b, first, outside⟩ : ∃ b, b ∈ s.blocks start p ∧ b ∉ s.lh := by
    simp only [State.blocks, here, State.entryBlocks]
    have away : ∀ i, i < LOGBLOCKS → start + i + 1 ∉ s.lh := fun i inside member =>
      home_ne_slot (running.home _ member) inside rfl
    cases found : s.lh[tail]? with
    | some home =>
        have below := (List.getElem?_eq_some_iff.mp found).1
        exact ⟨start + tail + 1, by simp, away tail (below.trans_eq full)⟩
    | none => exact ⟨start, by simp, fun member => home_ne_start (running.home _ member) rfl⟩
  have inside : insert b s.lh.toFinset ⊆ s.inUse ∪ (s.blocks start p).toFinset := by
    refine Finset.insert_subset (by simp [first]) fun c member => ?_
    simp only [State.inUse, pinned]
    simp only [List.mem_toFinset] at member
    simp [member]
  have many := Finset.card_le_card inside
  rw [Finset.card_insert_of_notMem (by simpa using outside), List.toFinset_card_of_nodup
    running.nodup] at many
  simp only [State.lacks, decide_eq_true_eq]
  omega

end OsLab.Kernel.Log
