import OsLab.Kernel.FrameSafety

/-!
Threads and the address space they share. `kclone` copies the table of the creator, and
each of the two tables is changed alone afterwards; in every run in which nobody with a
partner changes its memory the two agree.
-/

namespace OsLab.Kernel.Memory

open OsLab.Library

variable {n : ℕ} {s t : State n} {initproc p : Fin n}

/-- A thread that can run and the process that has cloned it, which can run as well; neither has
called `kexec` since. -/
structure Partners (s : State n) (thread creator : Fin n) : Prop where
  isThread : (s.procs thread).isThread = true
  memParent : (s.procs thread).memParent = some creator
  running : (s.procs thread).state = .RUNNABLE
  alive : (s.procs creator).state = .RUNNABLE
  created : (s.procs creator).pid = s.creatorPid thread
  whole : s.split thread = false

theorem partners_iff {thread creator : Fin n} : Partners s thread creator ↔
    (s.procs thread).isThread = true ∧ (s.procs thread).memParent = some creator ∧
      (s.procs thread).state = .RUNNABLE ∧ (s.procs creator).state = .RUNNABLE ∧
      (s.procs creator).pid = s.creatorPid thread ∧ s.split thread = false :=
  ⟨fun h => ⟨h.1, h.2, h.3, h.4, h.5, h.6⟩, fun ⟨a, b, c, d, e, f⟩ => ⟨a, b, c, d, e, f⟩⟩

instance (thread creator : Fin n) : Decidable (Partners s thread creator) :=
  decidable_of_iff' _ partners_iff

def Proc.leaf (proc : Proc n) (q : ℕ) : Option Pte := proc.pagetable.bind fun table => table.leaf q

/-- The same size, and below it the same frames with the same flags. -/
def SameSpace (proc other : Proc n) : Prop :=
  proc.sz = other.sz ∧ ∀ q, q * PGSIZE < proc.sz → proc.leaf q = other.leaf q

/-- A process that shares its memory does not change it. -/
def Undivided (s : State n) (label : Fin n × Op) : Prop :=
  s.remaps label.1 label.2 = true → ∀ q, ¬ Partners s label.1 q ∧ ¬ Partners s q label.1

instance (s : State n) (label : Fin n × Op) : Decidable (Undivided s label) :=
  inferInstanceAs (Decidable (_ → _))

theorem lt_pages {q sz : ℕ} : q * PGSIZE < sz ↔ q < pages sz := by
  unfold pages pgRoundUp PGSIZE
  omega

structure Numbered (s : State n) : Prop where
  pid : ∀ q, (s.procs q).state ≠ .UNUSED → (s.procs q).pid < s.nextpid
  creator : ∀ q, (s.procs q).isThread = true → s.creatorPid q < s.nextpid

theorem Numbered.same (numbered : Numbered s) (nextpid : s.nextpid ≤ t.nextpid)
    (creatorPid : t.creatorPid = s.creatorPid)
    (pid : ∀ q, (t.procs q).state ≠ .UNUSED →
      (s.procs q).state ≠ .UNUSED ∧ (t.procs q).pid = (s.procs q).pid)
    (isThread : ∀ q, (t.procs q).isThread = true → (s.procs q).isThread = true) :
    Numbered t := by
  refine ⟨fun q used => ?_, fun q thread => ?_⟩
  · obtain ⟨used, same⟩ := pid q used
    rw [same]
    exact (numbered.pid q used).trans_le nextpid
  · rw [creatorPid]
    exact (numbered.creator q (isThread q thread)).trans_le nextpid

theorem Numbered.spawned {np : Fin n} {child : Proc n} (numbered : Numbered s)
    (spawned : Spawned s p np child t) (q : Fin n) (used : (t.procs q).state ≠ .UNUSED) :
    (t.procs q).pid < t.nextpid := by
  rw [spawned.nextpid]
  rw [spawned.procs] at used ⊢
  by_cases same : q = np
  · simp [same, spawned.pid]
  · simp only [Function.update_of_ne same] at used ⊢
    have bound := numbered.pid q used
    omega

theorem Numbered.step {op : Op} (numbered : Numbered s) (running : (s.procs p).state = .RUNNABLE)
    (effect : Effect initproc p op s t) : Numbered t := by
  cases effect with
  | kept kept =>
      refine numbered.same kept.nextpid kept.creatorPid ?_ ?_ <;> simp [kept.procs]
  | exited _ same =>
      subst same
      refine numbered.same le_rfl rfl (fun q used => ⟨?_, rfl⟩) fun q => id
      by_cases same : q = p
      · simp [same, running]
      · simpa [State.exited, same] using used
  | moved moved =>
      refine numbered.same moved.nextpid.ge moved.creatorPid (fun q used => ?_) fun q thread => ?_
      · rw [moved.procs] at used ⊢
        by_cases same : q = p
        · subst same
          simp [running]
        · simpa [same] using used
      · rw [moved.procs] at thread
        by_cases same : q = p
        · subst same
          simpa using thread
        · simpa [same] using thread
  | @forked np child spawned process _ _ creatorPid _ =>
      refine ⟨numbered.spawned spawned, fun q thread => ?_⟩
      rw [spawned.nextpid, creatorPid]
      rw [spawned.procs] at thread
      by_cases same : q = np
      · simp [same, process] at thread
      · simp only [Function.update_of_ne same] at thread
        have bound := numbered.creator q thread
        omega
  | @cloned np child old new spawned _ _ _ _ _ _ _ creatorPid _ =>
      refine ⟨numbered.spawned spawned, fun q thread => ?_⟩
      rw [spawned.nextpid, creatorPid]
      rw [spawned.procs] at thread
      by_cases same : q = np
      · have bound := numbered.pid p (by simp [running])
        simp only [same, Function.update_self]
        omega
      · simp only [Function.update_of_ne same] at thread ⊢
        have bound := numbered.creator q thread
        omega
  | @reapedProcess pp reaped | @reapedThread pp reaped =>
      refine numbered.same reaped.nextpid.ge reaped.creatorPid (fun q used => ?_)
        fun q thread => ?_
      · rw [reaped.procs] at used ⊢
        by_cases same : q = pp
        · simp [same, Proc.unused] at used
        · simpa [same] using used
      · rw [reaped.procs] at thread
        by_cases same : q = pp
        · simp [same, Proc.unused] at thread
        · simpa [same] using thread

structure Linked (s : State n) : Prop where
  numbered : Numbered s
  agree : ∀ thread creator, Partners s thread creator →
    SameSpace (s.procs thread) (s.procs creator)

theorem Linked.elsewhere {slot thread creator : Fin n} {process : Proc n} (linked : Linked s)
    (procs : t.procs = Function.update s.procs slot process) (first : thread ≠ slot)
    (second : creator ≠ slot) (created : t.creatorPid thread = s.creatorPid thread)
    (split : t.split thread = s.split thread) (partners : Partners t thread creator) :
    SameSpace (t.procs thread) (t.procs creator) := by
  rw [partners_iff] at partners
  rw [procs, Function.update_of_ne first, Function.update_of_ne second] at partners ⊢
  rw [created, split] at partners
  exact linked.agree thread creator (partners_iff.mpr partners)

/-- A process that changes its memory has no partner, leaves its entries as they were, or parts
from its partners. -/
theorem Linked.moved {op : Op} {old new : PageTable} {sz : ℕ} {thread creator : Fin n}
    (linked : Linked s) (allowed : Undivided s (p, op)) (moved : Moved s p op old new sz t)
    (partners : Partners t thread creator) : SameSpace (t.procs thread) (t.procs creator) := by
  have states : ∀ q, (t.procs q).state = (s.procs q).state ∧
      (t.procs q).isThread = (s.procs q).isThread ∧
      (t.procs q).memParent = (s.procs q).memParent ∧ (t.procs q).pid = (s.procs q).pid := by
    intro q
    rw [moved.procs]
    by_cases same : q = p <;> simp [same]
  have others : ∀ q, q ≠ p → t.procs q = s.procs q := fun q other => by
    rw [moved.procs, Function.update_of_ne other]
  have before : s.split thread = false → Partners s thread creator := by
    intro whole
    obtain ⟨isThread, memParent, on, alive, created, -⟩ := partners
    rw [(states _).1] at on alive
    rw [(states _).2.1] at isThread
    rw [(states _).2.2.1] at memParent
    rw [(states _).2.2.2, moved.creatorPid] at created
    exact ⟨isThread, memParent, on, alive, created, whole⟩
  rcases moved.extent with ⟨split, remaps | ⟨size, leaves⟩⟩ | split
  · have before := before (split ▸ partners.whole)
    have apart := allowed remaps
    rw [others thread fun same => (apart creator).1 (same ▸ before),
      others creator fun same => (apart thread).2 (same ▸ before)]
    exact linked.agree thread creator before
  · have space : ∀ q, (t.procs q).sz = (s.procs q).sz ∧
        ∀ r, (t.procs q).leaf r = (s.procs q).leaf r := by
      intro q
      rw [moved.procs]
      by_cases same : q = p
      · subst same
        simp [Proc.leaf, size, moved.before, leaves]
      · simp [same]
    obtain ⟨sizes, entries⟩ := linked.agree thread creator (before (split ▸ partners.whole))
    refine ⟨by rw [(space _).1, (space _).1, sizes], fun r below => ?_⟩
    rw [(space _).2, (space _).2]
    exact entries r ((space _).1 ▸ below)
  · have whole := partners.whole
    simp only [split, Bool.or_eq_false_iff] at whole
    have before := before whole.1
    have apart := whole.2
    simp only [State.parts, Bool.or_eq_false_iff, decide_eq_false_iff_not,
      Bool.and_eq_false_iff] at apart
    have second : creator ≠ p := by
      rintro rfl
      rcases apart.2 with parent | created
      · exact parent before.memParent
      · exact created before.created.symm
    rw [others thread apart.1, others creator second]
    exact linked.agree thread creator before

/-- The creator of an older thread is not the slot that is filled: its pid was given out before. -/
theorem Linked.creator_ne {np thread creator : Fin n} {child : Proc n} (linked : Linked s)
    (spawned : Spawned s p np child t) (first : thread ≠ np)
    (created : t.creatorPid thread = s.creatorPid thread) (partners : Partners t thread creator) :
    creator ≠ np := by
  rintro rfl
  have isThread := partners.isThread
  rw [spawned.procs, Function.update_of_ne first] at isThread
  have pid := partners.created
  rw [spawned.procs, Function.update_self, spawned.pid, created] at pid
  have bound := linked.numbered.creator thread isThread
  omega

theorem Linked.step {op : Op} (linked : Linked s) (running : (s.procs p).state = .RUNNABLE)
    (allowed : Undivided s (p, op)) (effect : Effect initproc p op s t) : Linked t := by
  refine ⟨linked.numbered.step running effect, fun thread creator partners => ?_⟩
  cases effect with
  | kept kept =>
      rw [kept.procs]
      refine linked.agree thread creator ?_
      rw [partners_iff] at partners ⊢
      simpa only [kept.procs, kept.creatorPid, kept.split] using partners
  | exited _ same =>
      subst same
      have before : Partners s thread creator := by
        obtain ⟨isThread, memParent, on, alive, created, whole⟩ := partners
        refine ⟨isThread, memParent, ?_, ?_, created, whole⟩
        · by_cases same : thread = p
          · rw [same, running]
          · simpa [State.exited, same] using on
        · by_cases same : creator = p
          · rw [same, running]
          · simpa [State.exited, same] using alive
      exact linked.agree thread creator before
  | moved moved => exact linked.moved allowed moved partners
  | @forked np child spawned process _ _ creatorPid split =>
      have first : thread ≠ np := by
        rintro rfl
        have isThread := partners.isThread
        rw [spawned.procs, Function.update_self, process] at isThread
        simp at isThread
      have created : t.creatorPid thread = s.creatorPid thread := congrFun creatorPid thread
      have second := linked.creator_ne spawned first created partners
      exact linked.elsewhere spawned.procs first second created (congrFun split thread) partners
  | @cloned np child old new spawned _ memParent before after shared _ _ creatorPid split =>
      by_cases first : thread = np
      · subst first
        obtain rfl : creator = p := by
          have parent := partners.memParent
          rw [spawned.procs, Function.update_self, memParent] at parent
          exact (Option.some.inj parent).symm
        have other : creator ≠ thread := by
          rintro rfl
          simp [spawned.free, Proc.unused] at running
        rw [spawned.procs, Function.update_self, Function.update_of_ne other]
        refine ⟨spawned.sz, fun q below => ?_⟩
        rw [spawned.sz, lt_pages] at below
        simpa [Proc.leaf, before, after] using shared.below q below
      · have created : t.creatorPid thread = s.creatorPid thread := by
          rw [creatorPid, Function.update_of_ne first]
        have whole : t.split thread = s.split thread := by
          rw [split, Function.update_of_ne first]
        have second := linked.creator_ne spawned first created partners
        exact linked.elsewhere spawned.procs first second created whole partners
  | @reapedProcess pp reaped | @reapedThread pp reaped =>
      have first : thread ≠ pp := by
        rintro rfl
        have on := partners.running
        simp [reaped.procs, Proc.unused] at on
      have second : creator ≠ pp := by
        rintro rfl
        have alive := partners.alive
        simp [reaped.procs, Proc.unused] at alive
      exact linked.elsewhere reaped.procs first second (congrFun reaped.creatorPid thread)
        (congrFun reaped.split thread) partners

theorem boot_linked {frames : List Frame} (booted : boot initproc frames = some s) :
    Linked s := by
  obtain ⟨tf, sig, table, -, -, procs, -, -, nextpid⟩ := boot_some booted
  have kind : ∀ q, (s.procs q).isThread = false := by
    intro q
    rw [procs, Function.update_apply]
    split <;> rfl
  refine ⟨⟨fun q used => ?_, fun q thread => ?_⟩, fun thread creator partners => ?_⟩
  · rw [nextpid]
    rw [procs] at used ⊢
    by_cases same : q = initproc
    · subst same
      simp [Proc.fresh]
    · simp [same, Proc.unused] at used
  · simp [kind q] at thread
  · have thread := partners.isThread
    simp [kind _] at thread

/-- In every run in which no process that shares its memory with a thread or with its creator
changes it, a thread and its creator have the same size and the same pages. -/
theorem same_space_of_undivided
    (reachable : ((system initproc).restrict Undivided).Reachable s) {thread creator : Fin n}
    (partners : Partners s thread creator) : SameSpace (s.procs thread) (s.procs creator) := by
  refine Linked.agree (@System.Reachable.invariantWith _ _ _ Shape Linked
    (fun _ earlier => reachable_shape earlier.unrestrict) ?_ ?_ s reachable) _ _ partners
  · rintro s ⟨frames, -, booted⟩
    exact boot_linked booted
  · rintro before ⟨p, op⟩ after shape - linked ⟨allowed, taken⟩
    obtain ⟨running, effect⟩ := Effect.of_step shape taken
    exact linked.step running allowed effect

/-- The creator grows and clones the thread. The thread forks a child, which grows and exits and is
waited for, the creator faults at a page that it has, and init grows. -/
def beside (init creator thread child : Fin n) : List (Fin n × Op) :=
  [(init, .exec smallImage), (init, .fork), (creator, .grow 4096), (creator, .clone),
    (thread, .fork), (child, .grow 8192), (creator, .fault 4096), (init, .sbrk 4096),
    (child, .exit), (thread, .wait)]

theorem same_space_of_undivided_beside : ∃ s : State 4, Partners s 2 1 ∧
    (s.procs 1).sz = 16384 ∧ (s.procs 0).sz = 16384 ∧ SameSpace (s.procs 2) (s.procs 1) := by
  have sound : ∀ before label after, System.guard Undivided (step (0 : Fin 4)) before label =
      some after → ((system 0).restrict Undivided).step before label after :=
    System.guard_sound fun _ _ _ taken => taken
  have executed : ((boot 0 (List.range 64)).bind fun s =>
      (System.execute (System.guard Undivided (step (0 : Fin 4))) s (beside 0 1 2 3)).map fun s =>
        (decide (Partners s 2 1), (s.procs 1).sz, (s.procs 0).sz)) =
          some (true, 16384, 16384) := by
    decide +kernel
  obtain ⟨start, booted, executed⟩ := Option.bind_eq_some_iff.mp executed
  obtain ⟨s, run, ends⟩ := System.Run.existsOfExecute sound executed
  simp only [Prod.mk.injEq] at ends
  obtain ⟨partners, size, other⟩ := ends
  exact ⟨s, of_decide_eq_true partners, size, other, same_space_of_undivided (run.reachable
    (.start ⟨List.range 64, List.nodup_range, booted⟩)) (of_decide_eq_true partners)⟩

/-- A thread grows, and its creator does not see the new page. -/
theorem grown_thread_parts : ∃ s : State 3, (system 0).Reachable s ∧ Partners s 2 1 ∧
    ¬ SameSpace (s.procs 2) (s.procs 1) := by
  have sound : ∀ before label after, step (0 : Fin 3) before label = some after →
      (system 0).step before label after := fun _ _ _ taken => taken
  have executed : ((boot 0 (List.range 32)).bind fun s => (System.execute (step (0 : Fin 3)) s
      [(0, .exec smallImage), (0, .fork), (1, .clone), (2, .grow 4096)]).map fun s =>
        (decide (Partners s 2 1), (s.procs 2).sz, (s.procs 1).sz)) =
      some (true, 16384, 12288) := by
    decide +kernel
  obtain ⟨start, booted, executed⟩ := Option.bind_eq_some_iff.mp executed
  obtain ⟨s, run, ends⟩ := System.Run.existsOfExecute sound executed
  simp only [Prod.mk.injEq] at ends
  obtain ⟨partners, grown, size⟩ := ends
  refine ⟨s, run.reachable (.start ⟨List.range 32, List.nodup_range, booted⟩),
    of_decide_eq_true partners, fun same => ?_⟩
  have equal := same.1
  rw [grown, size] at equal
  omega

end OsLab.Kernel.Memory
