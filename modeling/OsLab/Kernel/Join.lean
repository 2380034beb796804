import OsLab.Kernel.Reaping

/-!
When `kjoin` finds the threads its caller has created: as long as no `kwait` of the
same caller has freed one of them. `kwait` does not look at `is_thread`.
-/

namespace OsLab.Kernel.Lifecycle

open OsLab.Library OsLab.Kernel.Threads

variable {n : ℕ} {initproc p : Fin n} {s t : KernelState n}

/-- The step is a `kwait` freeing a ZOMBIE thread whose `mem_parent` is the caller. -/
def freesThread (s : KernelState n) : Fin n × Event Input → Bool
  | (p, .run .succeed) =>
      match s.pc p with
      | .main (.waitTest .wait pp) =>
          s.state pp = .ZOMBIE && s.data.isThread pp && s.data.memParent pp = some p
      | _ => false
  | _ => false

/-- Every `kwait` leaves the threads of its caller alone. -/
def Undisturbed (s : KernelState n) (label : Fin n × Event Input) : Prop :=
  freesThread s label = false

instance (s : KernelState n) (label : Fin n × Event Input) : Decidable (Undisturbed s label) :=
  inferInstanceAs (Decidable (_ = _))

/-! ### The threads of a process -/

structure Thread (state : Fin n → Procstate) (data : Data n) (p i : Fin n) : Prop where
  active : state i ≠ .UNUSED
  parent : data.parent i = some p
  marked : data.isThread i = true
  creator : data.memParent i = some p

def Point.cloning : Point n → Option (Fin n)
  | .forkUnlock .clone np | .forkWaitLock .clone np _ | .forkParent .clone np _
  | .forkWaitUnlock .clone np _ | .forkLock .clone np _ | .forkReady .clone np _ => some np
  | _ => none

def Point.adopted : Point n → Option (Fin n)
  | .forkWaitUnlock _ np _ | .forkLock _ np _ | .forkReady _ np _ => some np
  | _ => none

def Point.cloned : Point n → Option Int
  | .forkDone .clone _ pid | .forkReturn .clone pid => some pid
  | _ => none

def Point.joining : Point n → Option Int
  | .waitFreed (.join tid) _ _ | .waitDone (.join tid) _ | .waitReturn (.join tid) _ => some tid
  | _ => none

theorem fresh_or_adopted {pc : KernelPc n} {np : Fin n}
    (builds : atPoint Point.builds pc = some np) :
    atPoint Point.fresh pc = some np ∨ atPoint Point.adopted pc = some np := by
  cases pc with
  | main m | yield stage m =>
      cases m <;> simp_all [atPoint, Point.builds, Point.fresh, Point.adopted]
  | _ => simp [atPoint] at builds

theorem builds_of_adopted {pc : KernelPc n} {np : Fin n}
    (adopted : atPoint Point.adopted pc = some np) : atPoint Point.builds pc = some np := by
  cases pc with
  | main m | yield stage m => cases m <;> simp_all [atPoint, Point.adopted, Point.builds]
  | _ => simp [atPoint] at adopted

theorem builds_of_cloning {pc : KernelPc n} {np : Fin n}
    (cloning : atPoint Point.cloning pc = some np) : atPoint Point.builds pc = some np := by
  cases pc with
  | main m | yield stage m =>
      cases m with
      | forkUnlock kind | forkWaitLock kind | forkParent kind | forkWaitUnlock kind
      | forkLock kind | forkReady kind =>
          cases kind <;> simp_all [atPoint, Point.cloning, Point.builds]
      | _ => simp [atPoint, Point.cloning] at cloning
  | _ => simp [atPoint] at cloning

structure Clones (state : Fin n → Procstate) (data : Data n) (pc : Fin n → KernelPc n) :
    Prop where
  unborn : ∀ i, state i = .USED → data.threads i = []
  marked : ∀ p np, atPoint Point.cloning (pc p) = some np →
    data.isThread np = true ∧ data.memParent np = some p
  adopted : ∀ p np, atPoint Point.adopted (pc p) = some np → data.parent np = some p
  started : ∀ p x, atPoint Point.cloned (pc p) = some x →
    ∃ i, Thread state data p i ∧ data.pid i = x
  obtained : ∀ p x, x ∈ data.threads p → orphaned (pc p) = none →
    atPoint Point.joining (pc p) = some x ∨ ∃ i, Thread state data p i ∧ data.pid i = x

section Steps

variable {state : Fin n → Procstate} {data : Data n} {input : Input} {m : Point n}
  {instr : KernelInstr n}

/-- A statement of `p` touches a slot in use only to fill it, to pass it on or to free it. -/
theorem stmt_frame {i : Fin n}
    (matched : ∀ call pp, m = .waitTest call pp → data.parent pp = some p)
    (active : state i ≠ .UNUSED) (settled : m.fresh ≠ some i)
    (own : data.parent i = some p → m.orphaned = none ∧
      ∀ data' next, instr ≠ .setState i .UNUSED data' next)
    (stmt : Stmt initproc p state data input m instr) :
    instr.state state i ≠ .UNUSED ∧ (instr.data data).pid i = data.pid i ∧
      (instr.data data).parent i = data.parent i ∧
      (instr.data data).isThread i = data.isThread i ∧
      (instr.data data).memParent i = data.memParent i := by
  have updated : ∀ (q : Fin n) (later : Procstate), later ≠ .UNUSED →
      Function.update state q later i ≠ .UNUSED := by
    intro q later used
    by_cases hit : i = q
    · subst i
      simpa using used
    · rwa [Function.update_of_ne hit]
  cases stmt with
  | allocproc kind np unused =>
      have other : i ≠ np := by
        rintro rfl
        exact active unused
      simp [Instr.state, Instr.data, Data.allocproc, other, active]
  | abandon kind np =>
      have other : i ≠ np := by
        rintro rfl
        exact settled rfl
      simp [Instr.state, Instr.data, Data.freeproc, other, active]
  | mark kind np =>
      have other : i ≠ np := by
        rintro rfl
        exact settled rfl
      cases kind <;> simp [Instr.state, Instr.data, Data.mark, other, active]
  | adopt kind np pid =>
      have other : i ≠ np := by
        rintro rfl
        exact settled rfl
      simp [Instr.state, Instr.data, Data.adopt, other, active]
  | reparent status pp child =>
      have other : i ≠ pp := by
        rintro rfl
        simp [Point.orphaned] at own
        exact own child
      simp [Instr.state, Instr.data, other, active]
  | reap call pp dead =>
      have other : i ≠ pp := by
        rintro rfl
        exact (own (matched call i rfl)).2 _ _ rfl
      simp [Instr.state, Instr.data, Data.reap, Data.freeproc, other, active]
  | spawn kind np pid | zombie status parent | postWake pid signum q sleeping =>
      exact ⟨updated _ _ (by simp), rfl, rfl, rfl, rfl⟩
  | obtained kind pid => cases kind <;> exact ⟨active, rfl, rfl, rfl, rfl⟩
  | joined call pid => cases call <;> exact ⟨active, rfl, rfl, rfl, rfl⟩
  | _ => exact ⟨active, rfl, rfl, rfl, rfl⟩

theorem Thread.stmt {q i : Fin n} (thread : Thread state data q i)
    (matched : ∀ call pp, m = .waitTest call pp → data.parent pp = some p)
    (orphan : ∀ np, m.fresh = some np → data.parent np = none)
    (own : q = p → m.orphaned = none ∧ ∀ data' next, instr ≠ .setState i .UNUSED data' next)
    (stmt : Stmt initproc p state data input m instr) :
    Thread (instr.state state) (instr.data data) q i ∧
      (instr.data data).pid i = data.pid i := by
  have settled : m.fresh ≠ some i := by
    intro fresh
    simpa [thread.parent] using orphan i fresh
  have mine : data.parent i = some p → q = p := by
    intro child
    exact Option.some.inj (thread.parent.symm.trans child)
  obtain ⟨active, pid, parent, marked, creator⟩ :=
    stmt_frame matched thread.active settled (fun child => own (mine child)) stmt
  exact ⟨⟨active, parent.trans thread.parent, marked.trans thread.marked,
    creator.trans thread.creator⟩, pid⟩

theorem builds_of_started {pc : Fin n → KernelPc n}
    (stmt : Stmt initproc p state data input m instr) {q : Fin n}
    (changed : instr.others pc q ≠ pc q) : m.builds = some q := by
  cases stmt with
  | spawn kind np pid =>
      by_cases hit : q = np
      · rw [hit]
        rfl
      · simp [Instr.others, hit] at changed
  | _ => simp [Instr.others] at changed

theorem orphaned_of_stmt (stmt : Stmt initproc p state data input m instr)
    (back : orphaned instr.next = none) : m.orphaned = none := by
  cases stmt <;> simp_all [Instr.next, orphaned, Point.orphaned]

theorem cloned_of_stmt
    (marked : ∀ np, m.cloning = some np → data.isThread np = true ∧ data.memParent np = some p)
    (adopted : ∀ np, m.adopted = some np → data.parent np = some p)
    (carried : ∀ np x, m.carries = some (np, x) → data.pid np = x)
    (started : ∀ x, m.cloned = some x → ∃ i, Thread state data p i ∧ data.pid i = x)
    (stmt : Stmt initproc p state data input m instr) :
    (∀ np, atPoint Point.cloning instr.next = some np →
      (instr.data data).isThread np = true ∧ (instr.data data).memParent np = some p) ∧
    (∀ np, atPoint Point.adopted instr.next = some np → (instr.data data).parent np = some p) ∧
    ∀ x, atPoint Point.cloned instr.next = some x →
      ∃ i, Thread (instr.state state) (instr.data data) p i ∧ (instr.data data).pid i = x := by
  cases stmt with
  | mark kind np =>
      cases kind with
      | fork => simp [Instr.next, atPoint, Point.cloning, Point.adopted, Point.cloned]
      | clone =>
          refine ⟨?_, by simp [Instr.next, atPoint, Point.adopted],
            by simp [Instr.next, atPoint, Point.cloned]⟩
          rintro _ ⟨⟩
          simp [Instr.data, Data.mark]
  | forkUnlock kind np | forkWaitLock kind np | forkWaitUnlock kind np | forkLock kind np =>
      cases kind with
      | fork => exact ⟨by simp [Instr.next, atPoint, Point.cloning], adopted,
          by simp [Instr.next, atPoint, Point.cloned]⟩
      | clone => exact ⟨marked, adopted, by simp [Instr.next, atPoint, Point.cloned]⟩
  | adopt kind np pid =>
      have child : ∀ q, atPoint Point.adopted (.main (.forkWaitUnlock kind np pid)) = some q →
          (data.adopt p np).parent q = some p := by
        rintro _ ⟨⟩
        simp [Data.adopt]
      cases kind with
      | fork => exact ⟨by simp [Instr.next, atPoint, Point.cloning], child,
          by simp [Instr.next, atPoint, Point.cloned]⟩
      | clone => exact ⟨marked, child, by simp [Instr.next, atPoint, Point.cloned]⟩
  | spawn kind np pid =>
      refine ⟨by simp [Instr.next, atPoint, Point.cloning],
        by simp [Instr.next, atPoint, Point.adopted], ?_⟩
      cases kind with
      | fork => simp [Instr.next, atPoint, Point.cloned]
      | clone =>
          rintro _ ⟨⟩
          obtain ⟨thread, creator⟩ := marked np rfl
          exact ⟨np, ⟨by simp [Instr.state], adopted np rfl, thread, creator⟩, carried np pid rfl⟩
  | forkDone kind np pid =>
      refine ⟨by simp [Instr.next, atPoint, Point.cloning],
        by simp [Instr.next, atPoint, Point.adopted], ?_⟩
      cases kind with
      | fork => simp [Instr.next, atPoint, Point.cloned]
      | clone => exact started
  | _ => simp [Instr.next, atPoint, Point.cloning, Point.adopted, Point.cloned]

theorem unborn_of_stmt (unborn : ∀ i, state i = .USED → data.threads i = [])
    (running : m.zombie = false → state p = .RUNNING)
    (stmt : Stmt initproc p state data input m instr) (i : Fin n)
    (used : instr.state state i = .USED) : (instr.data data).threads i = [] := by
  have kept : ∀ {q : Fin n} {later : Procstate}, later ≠ .USED →
      Function.update state q later i = .USED → data.threads i = [] := by
    intro q later other used
    by_cases hit : i = q
    · subst i
      simp [other] at used
    · exact unborn i (by rwa [Function.update_of_ne hit] at used)
  have elsewhere : m.zombie = false → state i = .USED → i ≠ p := by
    rintro awake used rfl
    simp [running awake] at used
  cases stmt with
  | allocproc kind np unused =>
      by_cases hit : i = np
      · subst i
        simp [Instr.data, Data.allocproc]
      · simpa [Instr.data, Data.allocproc, hit] using
          unborn i (by simpa [Instr.state, hit] using used)
  | abandon kind np => exact kept (by simp) used
  | spawn kind np pid => exact kept (by simp) used
  | reap call pp dead => exact kept (by simp) used
  | zombie status parent => exact kept (by simp) used
  | postWake pid signum q sleeping => exact kept (by simp) used
  | mark kind np => cases kind <;> exact unborn i used
  | obtained kind pid =>
      cases kind with
      | fork => exact unborn i used
      | clone => simpa [Instr.data, Data.obtained, elsewhere rfl used] using unborn i used
  | joined call pid =>
      cases call with
      | wait => exact unborn i used
      | join tid => simpa [Instr.data, Data.joined, elsewhere rfl used] using unborn i used
  | _ => exact unborn i used

theorem threads_of_stmt (stmt : Stmt initproc p state data input m instr) {q : Fin n}
    (other : q ≠ p) : (instr.data data).threads q = data.threads q ∨
      (instr.data data).threads q = [] := by
  cases stmt with
  | allocproc kind np unused =>
      by_cases hit : q = np
      · subst q
        exact .inr (by simp [Instr.data, Data.allocproc])
      · exact .inl (by simp [Instr.data, Data.allocproc, hit])
  | mark kind np => cases kind <;> exact .inl rfl
  | obtained kind pid => cases kind <;> exact .inl (by simp [Instr.data, Data.obtained, other])
  | joined call pid => cases call <;> exact .inl (by simp [Instr.data, Data.joined, other])
  | _ => exact .inl rfl

/-- What `p` has obtained from `kclone` and not joined is still there after a statement that
frees none of its threads by `kwait`. -/
theorem obtained_of_stmt
    (started : ∀ x, m.cloned = some x → ∃ i, Thread state data p i ∧ data.pid i = x)
    (obtained : ∀ x, x ∈ data.threads p → m.orphaned = none →
      m.joining = some x ∨ ∃ i, Thread state data p i ∧ data.pid i = x)
    (matched : ∀ call pp, m = .waitTest call pp → call.Matches data p pp)
    (orphan : ∀ np, m.fresh = some np → data.parent np = none)
    (elsewhere : ∀ np, state np = .UNUSED → np ≠ p)
    (allowed : ∀ pp, m = .waitTest .wait pp → state pp = .ZOMBIE → input = .succeed →
      ¬ (data.isThread pp = true ∧ data.memParent pp = some p))
    (stmt : Stmt initproc p state data input m instr) {x : Int}
    (mine : x ∈ (instr.data data).threads p) (back : orphaned instr.next = none) :
    atPoint Point.joining instr.next = some x ∨
      ∃ i, Thread (instr.state state) (instr.data data) p i ∧ (instr.data data).pid i = x := by
  have alive := orphaned_of_stmt stmt back
  have keep : ∀ {i : Fin n}, Thread state data p i → data.pid i = x →
      (∀ data' next, instr ≠ .setState i .UNUSED data' next) →
      ∃ i, Thread (instr.state state) (instr.data data) p i ∧ (instr.data data).pid i = x := by
    intro i thread named kept
    obtain ⟨later, pid⟩ := thread.stmt (fun call pp here => (matched call pp here).1) orphan
      (fun _ => ⟨alive, kept⟩) stmt
    exact ⟨i, later, pid.trans named⟩
  have quiet : x ∈ data.threads p → (m.joining = some x → atPoint Point.joining instr.next = some x) →
      (∀ i data' next, instr ≠ .setState i .UNUSED data' next) →
      atPoint Point.joining instr.next = some x ∨
        ∃ i, Thread (instr.state state) (instr.data data) p i ∧ (instr.data data).pid i = x := by
    intro before goes kept
    rcases obtained x before alive with joining | ⟨i, thread, named⟩
    · exact .inl (goes joining)
    · exact .inr (keep thread named (kept i))
  cases stmt with
  | allocproc kind np unused =>
      have other := elsewhere np unused
      exact quiet (by simpa [Instr.data, Data.allocproc, Ne.symm other] using mine)
        (by simp [Point.joining]) (by simp)
  | abandon kind np =>
      rcases obtained x mine alive with joining | ⟨i, thread, named⟩
      · simp [Point.joining] at joining
      · refine .inr (keep thread named ?_)
        rintro _ _ ⟨⟩
        simpa [thread.parent] using orphan np rfl
  | reap call pp dead =>
      rcases obtained x mine alive with joining | ⟨i, thread, named⟩
      · simp [Point.joining] at joining
      · by_cases hit : i = pp
        · subst i
          cases call with
          | wait => exact absurd ⟨thread.marked, thread.creator⟩ (allowed pp rfl dead rfl)
          | join tid =>
              have own := (matched (.join tid) pp rfl).2 tid rfl
              exact .inl (by rw [← named, own]; rfl)
        · refine .inr (keep thread named ?_)
          rintro _ _ ⟨⟩
          exact hit rfl
  | obtained kind pid =>
      cases kind with
      | fork => exact quiet mine (by simp [Point.joining]) (by simp)
      | clone =>
          rcases List.mem_cons.mp (by simpa [Instr.data, Data.obtained] using mine) with rfl | before
          · obtain ⟨i, thread, named⟩ := started x rfl
            exact .inr (keep thread named (by simp))
          · exact quiet before (by simp [Point.joining]) (by simp)
  | joined call pid =>
      cases call with
      | wait => exact quiet mine (by simp [Point.joining]) (by simp)
      | join tid =>
          obtain ⟨before, other⟩ : x ∈ data.threads p ∧ x ≠ tid := by
            simpa [Instr.data, Data.joined] using mine
          refine quiet before (fun joining => ?_) (by simp)
          exact absurd (Option.some.inj joining).symm other
  | mark kind np => cases kind <;> exact quiet mine (by simp [Point.joining]) (by simp)
  | zombie status parent => simp [Point.orphaned] at alive
  | waitFreed call pp pid | waitDone call pid =>
      cases call with
      | wait => exact quiet mine (by simp [Point.joining]) (by simp)
      | join tid => exact quiet mine id (by simp)
  | _ => exact quiet mine (by simp [Point.joining]) (by simp)

end Steps

/-! ### Runs -/

theorem Sound.matched (sound : Sound initproc s) {m : Point n} (here : s.pc p = .main m)
    (call : WaitCall) (pp : Fin n) (tests : m = .waitTest call pp) : call.Matches s.data p pp :=
  (sound.waits.knows p).matched call pp (by rw [here, tests]; rfl)

theorem Sound.unparented (sound : Sound initproc s) {m : Point n} (here : s.pc p = .main m)
    (np : Fin n) (fresh : m.fresh = some np) : s.data.parent np = none :=
  sound.building.orphan p np (by rw [here]; exact fresh)

section Stmt

variable {input : Input} {m : Point n} {instr : KernelInstr n} {q : Fin n}

theorem Sound.thread (sound : Sound initproc s) (here : s.pc p = .main m)
    (stmt : Stmt initproc p s.state s.data input m instr) (other : q ≠ p) {i : Fin n}
    (thread : Thread s.state s.data q i) :
    Thread (instr.state s.state) (instr.data s.data) q i ∧
      (instr.data s.data).pid i = s.data.pid i :=
  thread.stmt (fun call pp tests => (sound.matched here call pp tests).1) (sound.unparented here)
    (fun same => absurd same other) stmt

/-- A slot that another process is filling is neither the one `p` fills nor a child of `p`. -/
theorem Clones.filling (clones : Clones s.state s.data s.pc) (sound : Sound initproc s)
    (here : s.pc p = .main m) (stmt : Stmt initproc p s.state s.data input m instr)
    (other : q ≠ p) {np : Fin n} (builds : atPoint Point.builds (s.pc q) = some np) :
    (instr.data s.data).parent np = s.data.parent np ∧
      (instr.data s.data).isThread np = s.data.isThread np ∧
      (instr.data s.data).memParent np = s.data.memParent np := by
  have used := sound.building.used q np builds
  have settled : m.fresh ≠ some np := by
    intro fresh
    have mine : atPoint Point.fresh (s.pc p) = some np := by rwa [here]
    exact other (sound.building.alone q p np builds (builds_of_fresh mine))
  have foreign : s.data.parent np ≠ some p := by
    intro child
    rcases fresh_or_adopted builds with fresh | adopted
    · simp [sound.building.orphan q np fresh] at child
    · exact other (Option.some.inj ((clones.adopted q np adopted).symm.trans child))
  obtain ⟨-, -, kept⟩ := stmt_frame (fun call pp tests => (sound.matched here call pp tests).1)
    (by simp [used]) settled (fun child => absurd child foreign) stmt
  exact kept

theorem Clones.started_none (clones : Clones s.state s.data s.pc) (sound : Sound initproc s)
    (here : s.pc p = .main m) (stmt : Stmt initproc p s.state s.data input m instr)
    (changed : instr.others s.pc q ≠ s.pc q) : s.data.threads q = [] := by
  have builds : atPoint Point.builds (s.pc p) = some q := by
    rw [here]
    exact builds_of_started stmt changed
  exact clones.unborn q (sound.building.used p q builds)

theorem Clones.obtained_other (clones : Clones s.state s.data s.pc) (sound : Sound initproc s)
    (here : s.pc p = .main m) (stmt : Stmt initproc p s.state s.data input m instr)
    (other : q ≠ p) {x : Int} (member : x ∈ (instr.data s.data).threads q)
    (back : orphaned (instr.others s.pc q) = none) :
    atPoint Point.joining (instr.others s.pc q) = some x ∨
      ∃ i, Thread (instr.state s.state) (instr.data s.data) q i ∧ (instr.data s.data).pid i = x := by
  have before : x ∈ s.data.threads q := by
    rcases threads_of_stmt stmt other with kept | none
    · rwa [kept] at member
    · simp [none] at member
  by_cases kept : instr.others s.pc q = s.pc q
  · rw [kept] at back ⊢
    rcases clones.obtained q x before back with joining | ⟨i, thread, named⟩
    · exact .inl joining
    · obtain ⟨later, pid⟩ := sound.thread here stmt other thread
      exact .inr ⟨i, later, pid.trans named⟩
  · simp [clones.started_none sound here stmt kept] at before

theorem Clones.obtained_own (clones : Clones s.state s.data s.pc) (sound : Sound initproc s)
    (here : s.pc p = .main m) (stmt : Stmt initproc p s.state s.data input m instr)
    (allowed : Undisturbed s (p, .run input)) {x : Int}
    (member : x ∈ (instr.data s.data).threads p) (back : orphaned instr.next = none) :
    atPoint Point.joining instr.next = some x ∨
      ∃ i, Thread (instr.state s.state) (instr.data s.data) p i ∧ (instr.data s.data).pid i = x := by
  refine obtained_of_stmt (fun x found => clones.started p x (by rw [here]; exact found))
    (fun x earlier alive => ?_) (sound.matched here) (sound.unparented here)
    (fun np unused => ?_) (fun pp tests zombie input => ?_) stmt member back
  · have known := clones.obtained p x earlier (by rw [here]; exact alive)
    rwa [here] at known
  · rintro rfl
    have dead := sound.threads.dead_of_unstarted (.inl unused)
    simp [here] at dead
  · subst input
    simpa [Undisturbed, freesThread, here, tests, zombie] using allowed

theorem Clones.stmt (clones : Clones s.state s.data s.pc) (sound : Sound initproc s)
    (here : s.pc p = .main m) (allowed : Undisturbed s (p, .run input))
    (stmt : Stmt initproc p s.state s.data input m instr) (performed : perform s p instr = some t) :
    Clones t.state t.data t.pc := by
  obtain ⟨data, state, moved⟩ := perform_effect performed
  have others : Others p s.pc t.pc := moved ▸ sound.others here stmt
  have self : t.pc p = instr.next := by rw [moved, Function.update_self]
  have apart : ∀ q, q ≠ p → t.pc q = instr.others s.pc q := fun q other => by
    rw [moved, Function.update_of_ne other]
  have running : m.zombie = false → s.state p = .RUNNING := by
    intro alive
    have fits := sound.threads.fits p
    rw [here] at fits
    simpa [Pc.Fits, policy, alive] using fits
  have mine : ∀ {α : Type} {f : Point n → Option α} {x : α}, f m = some x →
      atPoint f (s.pc p) = some x := by
    intro α f x found
    rwa [here]
  obtain ⟨marked, adopted, started⟩ := cloned_of_stmt
    (fun np found => clones.marked p np (mine found))
    (fun np found => clones.adopted p np (mine found))
    (fun np x found => sound.building.carried p np x (mine found))
    (fun x found => clones.started p x (mine found)) stmt
  rw [data, state]
  refine ⟨unborn_of_stmt clones.unborn running stmt, fun q np found => ?_, fun q np found => ?_,
    fun q x found => ?_, fun q x member back => ?_⟩
  · by_cases same : q = p
    · subst q
      exact marked np (self ▸ found)
    · rw [atPoint_of_others others Point.cloning rfl same] at found
      obtain ⟨-, thread, creator⟩ := clones.filling sound here stmt same (builds_of_cloning found)
      rw [thread, creator]
      exact clones.marked q np found
  · by_cases same : q = p
    · subst q
      exact adopted np (self ▸ found)
    · rw [atPoint_of_others others Point.adopted rfl same] at found
      rw [(clones.filling sound here stmt same (builds_of_adopted found)).1]
      exact clones.adopted q np found
  · by_cases same : q = p
    · subst q
      exact started x (self ▸ found)
    · rw [atPoint_of_others others Point.cloned rfl same] at found
      obtain ⟨i, thread, named⟩ := clones.started q x found
      obtain ⟨later, pid⟩ := sound.thread here stmt same thread
      exact ⟨i, later, pid.trans named⟩
  · by_cases same : q = p
    · subst q
      rw [self] at back ⊢
      exact clones.obtained_own sound here stmt allowed member back
    · rw [apart q same] at back ⊢
      exact clones.obtained_other sound here stmt same member back

end Stmt

theorem Clones.internal (clones : Clones s.state s.data s.pc) (sound : Sound initproc s)
    (internal : (program initproc).Internal s t p) : Clones t.state t.data t.pc := by
  obtain ⟨next, moved, flow⟩ := internal.pc
  have live := internal.live sound.threads
  have same : ∀ {α : Type} (f : Point n → Option α) q, (∀ call, f (.waitScan call 0 false) = none) →
      (∀ status i, f (.reparent status i) = none) →
      (∀ status parent, f (.exitAcquire status parent) = none) →
      atPoint f (t.pc q) = atPoint f (s.pc q) := by
    intro α f q scan reparent exit
    by_cases self : q = p
    · subst q
      rw [moved, Function.update_self]
      exact atPoint_flow f (sound.waits.knows p) flow scan reparent exit
    · rw [moved, Function.update_of_ne self]
  have thread : ∀ {q i : Fin n}, Thread s.state s.data q i → Thread t.state s.data q i := by
    intro q i thread
    refine ⟨?_, thread.parent, thread.marked, thread.creator⟩
    rcases live i with kept | ⟨-, after⟩
    · rw [kept]
      exact thread.active
    · rcases after with after | after | after <;> simp [after]
  rw [internal.data]
  refine ⟨fun i used => ?_, fun q np found => ?_, fun q np found => ?_, fun q x found => ?_,
    fun q x member back => ?_⟩
  · refine clones.unborn i ?_
    rcases live i with kept | ⟨-, after⟩
    · rwa [← kept]
    · rcases after with after | after | after <;> simp [after] at used
  · rw [same _ _ (fun _ => rfl) (fun _ _ => rfl) fun _ _ => rfl] at found
    exact clones.marked q np found
  · rw [same _ _ (fun _ => rfl) (fun _ _ => rfl) fun _ _ => rfl] at found
    exact clones.adopted q np found
  · rw [same _ _ (fun _ => rfl) (fun _ _ => rfl) fun _ _ => rfl] at found
    obtain ⟨i, held, named⟩ := clones.started q x found
    exact ⟨i, thread held, named⟩
  · rw [same _ _ (fun _ => rfl) (fun _ _ => rfl) fun _ _ => rfl]
    have before : orphaned (s.pc q) = none := by
      by_cases self : q = p
      · subst q
        rw [moved, Function.update_self] at back
        rw [← orphaned_flow flow]
        exact back
      · rwa [moved, Function.update_of_ne self] at back
    exact (clones.obtained q x member before).imp id fun ⟨i, held, named⟩ => ⟨i, thread held, named⟩

theorem boot_clones (initproc : Fin n) :
    Clones (boot initproc).state (boot initproc).data (boot initproc).pc := by
  have nowhere : ∀ {α : Type} (f : Point n → Option α) q, f .user = none →
      atPoint f ((boot initproc).pc q) = none := by
    intro α f q none
    by_cases first : q = initproc <;> simp [boot, first, atPoint, none]
  refine ⟨fun i _ => rfl, ?_, ?_, ?_, by simp [boot]⟩
  · simp [nowhere Point.cloning _ rfl]
  · simp [nowhere Point.adopted _ rfl]
  · simp [nowhere Point.cloned _ rfl]

theorem clones_of_undisturbed
    (reachable : ((system initproc).restrict Undisturbed).Reachable s) :
    Clones s.state s.data s.pc := by
  refine @System.Reachable.invariantWith _ _ _ (Sound initproc)
    (fun s => Clones s.state s.data s.pc)
    (fun _ earlier => sound_of_reachable earlier.unrestrict) ?_ ?_ s reachable
  · rintro _ rfl
    exact boot_clones initproc
  · rintro before ⟨q, event⟩ after sound - clones ⟨allowed, taken⟩
    rcases (program initproc).step_cases taken with
      ⟨m, input, instr, here, rfl, ran, performed⟩ | internal
    · exact clones.stmt sound here allowed (code_stmt ran) performed
    · exact clones.internal sound internal

def failing : KernelPc n → Option (Int × Failure)
  | .main (.waitFail (.join tid) failure) => some (tid, failure)
  | _ => none

theorem failing_eq {pc : KernelPc n} {tid : Int} {failure : Failure}
    (fails : failing pc = some (tid, failure)) : pc = .main (.waitFail (.join tid) failure) := by
  unfold failing at fails
  split at fails
  · obtain ⟨rfl, rfl⟩ := Prod.mk.inj (Option.some.inj fails)
    rfl
  · simp at fails

/-- A `kjoin` that returns -1 to a process that has not been killed, for a thread it has obtained
from `kclone` and not joined, has failed to copy the status out. -/
theorem join_of_undisturbed (reachable : ((system initproc).restrict Undisturbed).Reachable s)
    {tid : Int} {failure : Failure} (fails : failing (s.pc p) = some (tid, failure))
    (obtained : tid ∈ s.data.threads p) (unkilled : s.data.killed p = false) :
    failure = .copyout := by
  have here := failing_eq fails
  have clones := clones_of_undisturbed reachable
  have knows := (sound_of_reachable reachable.unrestrict).waits.knows p
  rw [here] at knows
  cases failure with
  | copyout => rfl
  | killed =>
      have set := knows.killed _ rfl rfl
      simp [unkilled] at set
  | noKids =>
      exfalso
      rcases clones.obtained p tid obtained (by rw [here]; rfl) with joining | ⟨i, thread, named⟩
      · simp [here, atPoint, Point.joining] at joining
      · refine knows.kidless (.join tid) n rfl i i.isLt ⟨thread.parent, ?_⟩
        rintro _ ⟨⟩
        exact named

/-- A process clones a thread and forks a child, which exits and is waited for while the thread runs.
The thread exits and is joined with a status address that cannot be written. -/
def waitedThenJoined (p thread child : Fin n) : List (Fin n × Event Input) :=
  startChild p thread .clone ++
    (p, .run (.call (.spawn .fork))) :: List.replicate 17 (p, .run .succeed) ++
    [(child, .dispatch), (child, .run .succeed)] ++
    exitChild child ++ List.replicate 4 (child, .run .succeed) ++ callWait p .wait 10 ++
    exitChild thread ++ List.replicate 4 (thread, .run .succeed) ++
    callWait p (.join 2) 3 ++ [(p, .run .fail), (p, .run .succeed)]

theorem join_of_undisturbed_waited : ∃ s : KernelState 3, ∃ failure : Failure,
    s.data.returned = [(0, 3)] ∧ failing (s.pc 0) = some (2, failure) ∧
      2 ∈ s.data.threads 0 ∧ failure = .copyout := by
  have sound : ∀ before label after,
      System.guard Undisturbed (program (0 : Fin 3)).step before label = some after →
      ((system 0).restrict Undisturbed).step before label after :=
    System.guard_sound fun _ _ _ taken => taken
  have executed : (System.execute (System.guard Undisturbed (program (0 : Fin 3)).step) (boot 0)
      (waitedThenJoined 0 1 2)).map (fun s =>
        (s.data.returned, failing (s.pc 0), s.data.threads 0, s.data.killed 0)) =
      some ([(0, 3)], some (2, .copyout), [2], false) := by decide +kernel
  obtain ⟨s, run, ends⟩ := System.Run.existsOfExecute sound executed
  simp only [Prod.mk.injEq] at ends
  obtain ⟨returned, fails, obtained, unkilled⟩ := ends
  have mine : 2 ∈ s.data.threads 0 := by simp [obtained]
  exact ⟨s, .copyout, returned, fails, mine,
    join_of_undisturbed (run.reachable (.start rfl)) fails mine unkilled⟩

/-- A thread that exits before its creator calls `kwait` is consumed there, and the `kjoin` after
it finds no child. -/
theorem kwait_consumes_thread : ∃ s : KernelState 2, (system 0).Reachable s ∧
    failing (s.pc 0) = some (2, .noKids) ∧ 2 ∈ s.data.threads 0 ∧ s.data.killed 0 = false := by
  have sound : ∀ before label after, (program (0 : Fin 2)).step before label = some after →
      (system 0).step before label after := fun _ _ _ taken => taken
  have executed : (System.execute (program (0 : Fin 2)).step (boot 0)
      (startChild 0 1 .clone ++ exitChild 1 ++ callWait 0 .wait 7 ++ callWait 0 (.join 2) 5)).map
      (fun s => (failing (s.pc 0), s.data.threads 0, s.data.killed 0)) =
      some (some (2, .noKids), [2], false) := by decide +kernel
  obtain ⟨s, run, ends⟩ := System.Run.existsOfExecute sound executed
  simp only [Prod.mk.injEq] at ends
  obtain ⟨fails, obtained, unkilled⟩ := ends
  exact ⟨s, run.reachable (.start rfl), fails, by simp [obtained], unkilled⟩

end OsLab.Kernel.Lifecycle
