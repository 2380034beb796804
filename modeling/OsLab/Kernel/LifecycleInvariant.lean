import OsLab.Kernel.Lifecycle

/-!
What holds of the process table in every run: the slots under construction, the
pids, and who is whose parent.
-/

namespace OsLab.Kernel.Lifecycle

open OsLab.Library OsLab.Kernel.Threads

variable {n : ℕ}

def Point.zombie : Point n → Bool
  | .exitWaitUnlock _ | .exitSched => true
  | _ => false

def Point.swept : Point n → Fin n → Prop
  | .exitAcquire _ parent, chan | .exitZombie _ parent, chan | .exitWaitUnlock parent, chan =>
      parent = some chan
  | _, _ => False

def policy (initproc : Fin n) : Policy (program initproc) where
  zombie := Point.zombie
  guard _ := .waitLock
  swept := Point.swept
  zombie_held p m dead := by cases m <;> simp_all [program, held, Point.zombie]
  swept_held p m chan swept := by
    cases m <;> simp_all [program, held, Point.swept, waitLock]

def Point.builds : Point n → Option (Fin n)
  | .allocRest _ np | .forkUnlock _ np | .forkWaitLock _ np _ | .forkParent _ np _
  | .forkWaitUnlock _ np _ | .forkLock _ np _ | .forkReady _ np _ => some np
  | _ => none

abbrev KernelPc (n : ℕ) := Pc n KernelLock (Fin n) (Point n)

/-- A property of points, read at a place of a thread: where a call or a `yield` will return. -/
def atPoint {α : Type} (f : Point n → Option α) : KernelPc n → Option α
  | .main m | .yield _ m => f m
  | _ => none

variable {initproc p : Fin n} {s t : KernelState n}

theorem allowed {input : Input} {m : Point n} {instr : KernelInstr n}
    (inv : (policy initproc).Inv s)
    (used : ∀ np, m.builds = some np → s.state np = .USED) (here : s.pc p = .main m)
    (stmt : Stmt initproc p s.state s.data input m instr) :
    (policy initproc).Allowed s p m instr := by
  have mine : ∀ lock, lock ∈ held p m → (program initproc).holds p (s.pc p) lock := by
    intro lock holds
    simpa [Program.holds, here, program] using holds
  have running : m.zombie = false → s.state p = .RUNNING := by
    intro alive
    have fits := inv.fits p
    rw [here] at fits
    simpa [Pc.Fits, policy, alive] using fits
  have elsewhere : ∀ q, s.pc q = .dead → q ≠ p := by
    rintro q dead rfl
    simp [here] at dead
  cases stmt with
  | allocproc kind np unused =>
      have dead := inv.dead_of_unstarted (.inl unused)
      refine ⟨by simp [program, held], by simp [program, held], by simp [policy, Point.swept], ?_⟩
      exact .inr ⟨elsewhere np dead, by simp [policy, Point.zombie], .inr ⟨dead, .inr rfl⟩⟩
  | abandon kind np =>
      have dead := inv.dead_of_unstarted (.inr (used np rfl))
      refine ⟨by simp [program, held], by simp [program, held], by simp [policy, Point.swept], ?_⟩
      exact .inr ⟨elsewhere np dead, by simp [policy, Point.zombie], .inr ⟨dead, .inl rfl⟩⟩
  | spawn kind np pid =>
      have dead := inv.dead_of_unstarted (.inr (used np rfl))
      exact ⟨elsewhere np dead, dead, by simp [program, held], by simp [policy, Point.zombie],
        by simp [program, held], by simp [policy, Point.zombie], by simp [policy, Point.swept]⟩
  | reap call pp zombie =>
      have other : pp ≠ p := by
        rintro rfl
        simp [running rfl] at zombie
      have dead := inv.dead_of_zombie other (mine _ (by simp [held])) zombie
      refine ⟨by simp [program, held], by simp [program, held], by simp [policy, Point.swept], ?_⟩
      exact .inr ⟨other, by simp [policy, Point.zombie], .inr ⟨dead, .inl rfl⟩⟩
  | postWake pid signum q sleeping =>
      refine ⟨by simp [program, held], by simp [program, held], by simp [policy, Point.swept],
        .inr ⟨?_, by simp [policy, Point.zombie], .inl ⟨sleeping, rfl⟩⟩⟩
      rintro rfl
      simp [running rfl] at sleeping
  | zombie status parent =>
      exact ⟨by simp [program, held], by simp [program, held], by simp [policy, Point.swept],
        .inl ⟨rfl, rfl, by simp [policy, Point.zombie]⟩⟩
  | exitWaitUnlock | waitNext | waitFreed | waitCopyFail | waitDie | waitStay =>
      simp [Policy.Allowed, program, held, policy, Point.zombie, Point.swept, waitLock]
      grind
  | _ =>
      simp [Policy.Allowed, program, held, policy, Point.zombie, Point.swept, waitLock]

/-! ### Pids -/

/-- Pids are handed out once; a slot keeps its pid until `kwait` or `kjoin` frees it. -/
structure Pids (state : Fin n → Procstate) (pid : Fin n → Int) (nextpid : Int)
    (reaps : List (Reap n)) (created : List Int) : Prop where
  range : ∀ i, state i ≠ .UNUSED → pid i < nextpid
  distinct : ∀ i j, state i ≠ .UNUSED → state j ≠ .UNUSED → pid i = pid j → i = j
  gone : ∀ r ∈ reaps, r.pid < nextpid ∧ ∀ i, state i ≠ .UNUSED → pid i ≠ r.pid
  once : (reaps.map Reap.pid).Nodup
  made : ∀ x ∈ created, x ∈ reaps.map Reap.pid ∨
    ∃ i, state i ≠ .UNUSED ∧ state i ≠ .USED ∧ pid i = x

section Pids

variable {before after : Fin n → Procstate} {pid : Fin n → Int} {nextpid : Int}
  {reaps : List (Reap n)} {created : List Int}

theorem Pids.keep (pids : Pids before pid nextpid reaps created)
    (same : ∀ i, (after i = .UNUSED ↔ before i = .UNUSED) ∧ (after i = .USED ↔ before i = .USED)) :
    Pids after pid nextpid reaps created := by
  have unused : ∀ i, after i ≠ .UNUSED ↔ before i ≠ .UNUSED := fun i => not_congr (same i).1
  refine ⟨fun i active => pids.range i ((unused i).mp active),
    fun i j one two => pids.distinct i j ((unused i).mp one) ((unused j).mp two),
    fun r member => ⟨(pids.gone r member).1,
      fun i active => (pids.gone r member).2 i ((unused i).mp active)⟩,
    pids.once, fun x member => ?_⟩
  rcases pids.made x member with reaped | ⟨i, active, started, own⟩
  · exact .inl reaped
  · exact .inr ⟨i, (unused i).mpr active, (not_congr (same i).2).mpr started, own⟩

theorem Pids.allocproc (pids : Pids before pid nextpid reaps created) {np : Fin n}
    (unused : before np = .UNUSED) :
    Pids (Function.update before np .USED) (Function.update pid np nextpid) (nextpid + 1) reaps
      created := by
  have old : ∀ i, i ≠ np → Function.update before np .USED i ≠ .UNUSED →
      before i ≠ .UNUSED := by
    intro i other active
    rwa [Function.update_of_ne other] at active
  refine ⟨fun i active => ?_, fun i j one two equal => ?_, fun r member => ⟨?_, fun i active => ?_⟩,
    pids.once, fun x member => ?_⟩
  · by_cases same : i = np
    · subst i
      rw [Function.update_self]
      omega
    · rw [Function.update_of_ne same]
      have := pids.range i (old i same active)
      omega
  · by_cases first : i = np <;> by_cases second : j = np
    · rw [first, second]
    · subst i
      rw [Function.update_self, Function.update_of_ne second] at equal
      have := pids.range j (old j second two)
      omega
    · subst j
      rw [Function.update_self, Function.update_of_ne first] at equal
      have := pids.range i (old i first one)
      omega
    · rw [Function.update_of_ne first, Function.update_of_ne second] at equal
      exact pids.distinct i j (old i first one) (old j second two) equal
  · have := (pids.gone r member).1
    omega
  · by_cases same : i = np
    · subst i
      rw [Function.update_self]
      have := (pids.gone r member).1
      omega
    · rw [Function.update_of_ne same]
      exact (pids.gone r member).2 i (old i same active)
  · rcases pids.made x member with reaped | ⟨i, active, started, own⟩
    · exact .inl reaped
    · have other : i ≠ np := by
        rintro rfl
        exact active unused
      exact .inr ⟨i, by rwa [Function.update_of_ne other], by rwa [Function.update_of_ne other],
        by rwa [Function.update_of_ne other]⟩

theorem Pids.free {later : List (Reap n)} (pids : Pids before pid nextpid reaps created) (pp : Fin n)
    (gone : ∀ r ∈ later, r.pid < nextpid ∧ ∀ i, i ≠ pp → before i ≠ .UNUSED → pid i ≠ r.pid)
    (once : (later.map Reap.pid).Nodup)
    (kept : ∀ x ∈ created, x ∈ later.map Reap.pid ∨
      ∃ i, i ≠ pp ∧ before i ≠ .UNUSED ∧ before i ≠ .USED ∧ pid i = x) :
    Pids (Function.update before pp .UNUSED) (Function.update pid pp 0) nextpid later created := by
  have old : ∀ i, Function.update before pp .UNUSED i ≠ .UNUSED →
      i ≠ pp ∧ before i ≠ .UNUSED := by
    intro i active
    by_cases same : i = pp
    · subst i
      simp at active
    · exact ⟨same, by rwa [Function.update_of_ne same] at active⟩
  refine ⟨fun i active => ?_, fun i j one two equal => ?_,
    fun r member => ⟨(gone r member).1, fun i active => ?_⟩, once, fun x member => ?_⟩
  · obtain ⟨other, active⟩ := old i active
    rw [Function.update_of_ne other]
    exact pids.range i active
  · obtain ⟨first, one⟩ := old i one
    obtain ⟨second, two⟩ := old j two
    rw [Function.update_of_ne first, Function.update_of_ne second] at equal
    exact pids.distinct i j one two equal
  · obtain ⟨other, active⟩ := old i active
    rw [Function.update_of_ne other]
    exact (gone r member).2 i other active
  · rcases kept x member with reaped | ⟨i, other, active, started, own⟩
    · exact .inl reaped
    · exact .inr ⟨i, by rwa [Function.update_of_ne other], by rwa [Function.update_of_ne other],
        by rwa [Function.update_of_ne other]⟩

theorem Pids.abandon (pids : Pids before pid nextpid reaps created) {np : Fin n}
    (used : before np = .USED) :
    Pids (Function.update before np .UNUSED) (Function.update pid np 0) nextpid reaps created := by
  refine pids.free np (fun r member => ⟨(pids.gone r member).1,
    fun i _ => (pids.gone r member).2 i⟩) pids.once fun x member => ?_
  rcases pids.made x member with reaped | ⟨i, active, started, own⟩
  · exact .inl reaped
  · refine .inr ⟨i, ?_, active, started, own⟩
    rintro rfl
    exact started used

theorem Pids.reap (pids : Pids before pid nextpid reaps created) {pp : Fin n} {r : Reap n}
    (zombie : before pp = .ZOMBIE) (named : r.pid = pid pp) :
    Pids (Function.update before pp .UNUSED) (Function.update pid pp 0) nextpid (r :: reaps)
      created := by
  have active : before pp ≠ .UNUSED := by simp [zombie]
  refine pids.free pp (fun other member => ?_) ?_ fun x member => ?_
  · rcases List.mem_cons.mp member with rfl | earlier
    · refine ⟨named ▸ pids.range pp active, fun i different later equal => ?_⟩
      exact different (pids.distinct i pp later active (equal.trans named))
    · exact ⟨(pids.gone other earlier).1, fun i _ => (pids.gone other earlier).2 i⟩
  · rw [List.map_cons, List.nodup_cons]
    refine ⟨fun again => ?_, pids.once⟩
    obtain ⟨other, member, equal⟩ := List.mem_map.mp again
    exact (pids.gone other member).2 pp active (named.symm.trans equal.symm)
  · rcases pids.made x member with reaped | ⟨i, running, started, own⟩
    · exact .inl (List.mem_cons_of_mem _ reaped)
    · by_cases same : i = pp
      · subst i
        exact .inl (by simp [named, own])
      · exact .inr ⟨i, same, running, started, own⟩

theorem Pids.spawn (pids : Pids before pid nextpid reaps created) {np : Fin n}
    (used : before np = .USED) :
    Pids (Function.update before np .RUNNABLE) pid nextpid reaps (pid np :: created) := by
  have active : ∀ i, Function.update before np .RUNNABLE i ≠ .UNUSED ↔ before i ≠ .UNUSED := by
    intro i
    by_cases same : i = np
    · subst i
      simp [used]
    · rw [Function.update_of_ne same]
  refine ⟨fun i later => pids.range i ((active i).mp later),
    fun i j one two => pids.distinct i j ((active i).mp one) ((active j).mp two),
    fun r member => ⟨(pids.gone r member).1,
      fun i later => (pids.gone r member).2 i ((active i).mp later)⟩,
    pids.once, fun x member => ?_⟩
  rcases List.mem_cons.mp member with rfl | earlier
  · exact .inr ⟨np, by simp, by simp, rfl⟩
  · rcases pids.made x earlier with reaped | ⟨i, running, started, own⟩
    · exact .inl reaped
    · have other : i ≠ np := by
        rintro rfl
        exact started used
      exact .inr ⟨i, by rwa [Function.update_of_ne other], by rwa [Function.update_of_ne other], own⟩

end Pids

/-! ### Slots under construction -/

def Point.carries : Point n → Option (Fin n × Int)
  | .forkWaitLock _ np pid | .forkParent _ np pid | .forkWaitUnlock _ np pid
  | .forkLock _ np pid | .forkReady _ np pid => some (np, pid)
  | _ => none

def Point.fresh : Point n → Option (Fin n)
  | .allocRest _ np | .forkUnlock _ np | .forkWaitLock _ np _ | .forkParent _ np _ => some np
  | _ => none

theorem builds_of_carries {pc : KernelPc n} {np : Fin n} {pid : Int}
    (carries : atPoint Point.carries pc = some (np, pid)) :
    atPoint Point.builds pc = some np := by
  cases pc with
  | main m | yield stage m => cases m <;> simp_all [atPoint, Point.carries, Point.builds]
  | _ => simp [atPoint] at carries

theorem builds_of_fresh {pc : KernelPc n} {np : Fin n}
    (fresh : atPoint Point.fresh pc = some np) : atPoint Point.builds pc = some np := by
  cases pc with
  | main m | yield stage m => cases m <;> simp_all [atPoint, Point.fresh, Point.builds]
  | _ => simp [atPoint] at fresh

structure Building (state : Fin n → Procstate) (pid : Fin n → Int)
    (parent : Fin n → Option (Fin n)) (pc : Fin n → KernelPc n) : Prop where
  used : ∀ p np, atPoint Point.builds (pc p) = some np → state np = .USED
  alone : ∀ p q np, atPoint Point.builds (pc p) = some np → atPoint Point.builds (pc q) = some np →
    p = q
  carried : ∀ p np x, atPoint Point.carries (pc p) = some (np, x) → pid np = x
  orphan : ∀ p np, atPoint Point.fresh (pc p) = some np → parent np = none

def Others (p : Fin n) (before after : Fin n → KernelPc n) : Prop :=
  ∀ q, q ≠ p → after q = before q ∨ before q = .dead ∧ after q = .yield .off .user

section Building

variable {state state' : Fin n → Procstate} {pid pid' : Fin n → Int}
  {parent parent' : Fin n → Option (Fin n)} {pc pc' : Fin n → KernelPc n}

theorem atPoint_of_others (others : Others p pc pc') {α : Type} (f : Point n → Option α)
    (idle : f .user = none) {q : Fin n} (other : q ≠ p) :
    atPoint f (pc' q) = atPoint f (pc q) := by
  rcases others q other with kept | ⟨dead, started⟩
  · rw [kept]
  · rw [dead, started]
    exact idle

theorem Building.step (building : Building state pid parent pc) (others : Others p pc pc')
    (builds : ∀ np, atPoint Point.builds (pc' p) = some np → state' np = .USED ∧
      (atPoint Point.builds (pc p) = some np ∨ state np = .UNUSED))
    (kept : ∀ np, state np = .USED → atPoint Point.builds (pc p) ≠ some np →
      state' np = .USED ∧ pid' np = pid np ∧ (parent np = none → parent' np = none))
    (carried : ∀ np x, atPoint Point.carries (pc' p) = some (np, x) → pid' np = x)
    (orphan : ∀ np, atPoint Point.fresh (pc' p) = some np → parent' np = none) :
    Building state' pid' parent' pc' := by
  have rest : ∀ {α : Type} (f : Point n → Option α) q (x : α), f .user = none → q ≠ p →
      atPoint f (pc' q) = some x → atPoint f (pc q) = some x :=
    fun f q x idle other found => (atPoint_of_others others f idle other).symm.trans found
  have apart : ∀ q np, q ≠ p → atPoint Point.builds (pc q) = some np →
      atPoint Point.builds (pc p) ≠ some np := by
    intro q np other theirs mine
    exact other (building.alone q p np theirs mine)
  have clash : ∀ q np, q ≠ p → atPoint Point.builds (pc' p) = some np →
      atPoint Point.builds (pc q) ≠ some np := by
    intro q np other mine theirs
    rcases (builds np mine).2 with before | unused
    · exact apart q np other theirs before
    · simp [building.used q np theirs] at unused
  refine ⟨fun q np found => ?_, fun q r np one two => ?_, fun q np x found => ?_,
    fun q np found => ?_⟩
  · by_cases same : q = p
    · subst q
      exact (builds np found).1
    · have before := rest Point.builds q np rfl same found
      exact (kept np (building.used q np before) (apart q np same before)).1
  · by_cases first : q = p <;> by_cases second : r = p
    · rw [first, second]
    · subst q
      exact absurd (rest Point.builds r np rfl second two) (clash r np second one)
    · subst r
      exact absurd (rest Point.builds q np rfl first one) (clash q np first two)
    · exact building.alone q r np (rest Point.builds q np rfl first one)
        (rest Point.builds r np rfl second two)
  · by_cases same : q = p
    · subst q
      exact carried np x found
    · have before := rest Point.carries q (np, x) rfl same found
      have theirs := builds_of_carries before
      rw [(kept np (building.used q np theirs) (apart q np same theirs)).2.1]
      exact building.carried q np x before
  · by_cases same : q = p
    · subst q
      exact orphan np found
    · have before := rest Point.fresh q np rfl same found
      have theirs := builds_of_fresh before
      exact (kept np (building.used q np theirs) (apart q np same theirs)).2.2
        (building.orphan q np before)

theorem Building.quiet (building : Building state pid parent pc) (others : Others p pc pc')
    (builds : ∀ np, atPoint Point.builds (pc' p) = some np → atPoint Point.builds (pc p) = some np)
    (carried : ∀ np x, atPoint Point.carries (pc' p) = some (np, x) →
      atPoint Point.carries (pc p) = some (np, x))
    (orphan : ∀ np, atPoint Point.fresh (pc' p) = some np →
      atPoint Point.fresh (pc p) = some np) : Building state pid parent pc' :=
  building.step others
    (fun np found => ⟨building.used p np (builds np found), .inl (builds np found)⟩)
    (fun _ used _ => ⟨used, rfl, id⟩)
    (fun np x found => building.carried p np x (carried np x found))
    fun np found => building.orphan p np (orphan np found)

theorem Building.leave (building : Building state pid parent pc) (others : Others p pc pc')
    (empty : atPoint Point.builds (pc' p) = none)
    (kept : ∀ np, state np = .USED → atPoint Point.builds (pc p) ≠ some np →
      state' np = .USED ∧ pid' np = pid np ∧ (parent np = none → parent' np = none)) :
    Building state' pid' parent' pc' := by
  have nothing : ∀ np, atPoint Point.builds (pc' p) ≠ some np := by
    intro np
    rw [empty]
    exact nofun
  refine building.step others (fun np found => ?_) kept (fun np x found => ?_) fun np found => ?_
  · exact absurd found (nothing np)
  · exact absurd (builds_of_carries found) (nothing np)
  · exact absurd (builds_of_fresh found) (nothing np)

end Building

theorem others_update (pc : Fin n → KernelPc n) (p : Fin n) (next : KernelPc n) :
    Others p pc (Function.update pc p next) := fun _ other => .inl (Function.update_of_ne other _ _)

theorem Building.stmt {state : Fin n → Procstate} {data : Data n} {pc : Fin n → KernelPc n}
    {input : Input} {m : Point n} {instr : KernelInstr n}
    (building : Building state data.pid data.parent pc) (here : pc p = .main m)
    (others : Others p pc (Function.update (instr.others pc) p instr.next))
    (unparented : ∀ i, state i = .UNUSED → data.parent i = none)
    (running : m.zombie = false → state p = .RUNNING)
    (stmt : Stmt initproc p state data input m instr) :
    Building (instr.state state) (instr.data data).pid (instr.data data).parent
      (Function.update (instr.others pc) p instr.next) := by
  have used : ∀ np, m.builds = some np → state np = .USED := by
    intro np builds
    exact building.used p np (by rw [here]; exact builds)
  have filling : ∀ np, m.builds = some np → ∀ other, atPoint Point.builds (pc p) ≠ some other →
      other ≠ np := by
    rintro np builds other apart rfl
    exact apart (by rw [here]; exact builds)
  have empty : atPoint Point.builds instr.next = none →
      atPoint Point.builds (Function.update (instr.others pc) p instr.next p) = none := by
    rw [Function.update_self]
    exact id
  cases stmt with
  | allocproc kind np unused =>
      have other : ∀ q, state q = .USED → q ≠ np := by
        intro q filled same
        rw [same, unused] at filled
        cases filled
      refine building.step others (fun q builds => ?_) (fun q filled _ => ?_) ?_ fun q fresh => ?_
      · obtain rfl : np = q := by simpa [Instr.next, atPoint, Point.builds] using builds
        exact ⟨by simp [Instr.state], .inr unused⟩
      · simp [Instr.state, Instr.data, Data.allocproc, other q filled, filled]
      · simp [Instr.next, atPoint, Point.carries]
      · obtain rfl : np = q := by simpa [Instr.next, atPoint, Point.fresh] using fresh
        exact unparented np unused
  | abandon kind np =>
      refine building.leave others (empty rfl) fun q filled apart => ?_
      have other := filling np rfl q apart
      simp [Instr.state, Instr.data, Data.freeproc, other, filled]
  | forkUnlock kind np =>
      refine building.step others (fun q builds => ?_) (fun _ filled _ => ⟨filled, rfl, id⟩)
        (fun q x carries => ?_) fun q fresh => building.orphan p q ?_
      · obtain rfl : np = q := by simpa [Instr.next, Instr.others, atPoint, Point.builds] using builds
        exact ⟨used np rfl, .inl (by rw [here]; rfl)⟩
      · obtain ⟨rfl, rfl⟩ : np = q ∧ data.pid np = x := by
          simpa [Instr.next, Instr.others, atPoint, Point.carries] using carries
        rfl
      · simpa [here, Instr.next, Instr.others, atPoint, Point.fresh] using fresh
  | adopt kind np pid =>
      refine building.step others (fun q builds => ?_) (fun q filled apart => ?_)
        (fun q x carries => building.carried p q x ?_) ?_
      · obtain rfl : np = q := by simpa [Instr.next, Instr.others, atPoint, Point.builds] using builds
        exact ⟨used np rfl, .inl (by rw [here]; rfl)⟩
      · have other := filling np rfl q apart
        simp [Instr.state, Instr.data, Data.adopt, other, filled]
      · simpa [here, Instr.next, Instr.others, atPoint, Point.carries] using carries
      · simp [Instr.next, atPoint, Point.fresh]
  | spawn kind np pid =>
      refine building.leave others (empty rfl) fun q filled apart => ?_
      have other := filling np rfl q apart
      simp [Instr.state, Instr.data, other, filled]
  | reparent status pp child =>
      refine building.leave others (empty rfl) fun q filled _ => ⟨filled, rfl, fun orphan => ?_⟩
      have other : q ≠ pp := by
        rintro rfl
        simp [orphan] at child
      simpa [Instr.data, other] using orphan
  | zombie status parent =>
      refine building.leave others (empty rfl) fun q filled _ => ⟨?_, rfl, id⟩
      have other : q ≠ p := by
        intro same
        rw [same, running rfl] at filled
        cases filled
      simpa [Instr.state, other] using filled
  | reap call pp dead =>
      refine building.leave others (empty rfl) fun q filled _ => ?_
      have other : q ≠ pp := by
        intro same
        rw [same, dead] at filled
        cases filled
      simp [Instr.state, Instr.data, Data.reap, Data.freeproc, other, filled]
  | postWake pid signum target sleeping =>
      refine building.leave others (empty rfl) fun q filled _ => ⟨?_, rfl, id⟩
      have other : q ≠ target := by
        intro same
        rw [same, sleeping] at filled
        cases filled
      simpa [Instr.state, other] using filled
  | mark kind np =>
      cases kind <;> refine building.quiet others ?_ ?_ ?_ <;>
        simp [here, Instr.next, Instr.others, atPoint, Point.builds, Point.carries, Point.fresh]
  | forkWaitLock kind np pid | forkWaitUnlock kind np pid | forkLock kind np pid =>
      refine building.quiet others ?_ ?_ ?_ <;>
        simp [here, Instr.next, Instr.others, atPoint, Point.builds, Point.carries, Point.fresh]
  | obtained kind pid => cases kind <;>
      exact building.leave others (empty rfl) fun _ filled _ => ⟨filled, rfl, id⟩
  | joined call pid => cases call <;>
      exact building.leave others (empty rfl) fun _ filled _ => ⟨filled, rfl, id⟩
  | _ => exact building.leave others (empty rfl) fun _ filled _ => ⟨filled, rfl, id⟩

theorem Pids.stmt {state : Fin n → Procstate} {data : Data n} {input : Input} {m : Point n}
    {instr : KernelInstr n} (pids : Pids state data.pid data.nextpid data.reaps data.created)
    (used : ∀ np, m.builds = some np → state np = .USED)
    (carried : ∀ np x, m.carries = some (np, x) → data.pid np = x)
    (running : m.zombie = false → state p = .RUNNING)
    (stmt : Stmt initproc p state data input m instr) :
    Pids (instr.state state) (instr.data data).pid (instr.data data).nextpid
      (instr.data data).reaps (instr.data data).created := by
  cases stmt with
  | allocproc kind np unused => exact pids.allocproc unused
  | abandon kind np => exact pids.abandon (used np rfl)
  | spawn kind np pid =>
      have named := carried np pid rfl
      subst named
      exact pids.spawn (used np rfl)
  | reap call pp dead => exact pids.reap dead rfl
  | zombie status parent =>
      refine pids.keep fun i => ?_
      by_cases same : i = p
      · subst i
        simp [Instr.state, running rfl]
      · simp [Instr.state, same]
  | postWake pid signum q sleeping =>
      refine pids.keep fun i => ?_
      by_cases same : i = q
      · subst i
        simp [Instr.state, sleeping]
      · simp [Instr.state, same]
  | post pid signum q =>
      exact pids
  | mark kind np => cases kind <;> exact pids
  | obtained kind pid => cases kind <;> exact pids
  | joined call pid => cases call <;> exact pids
  | _ => exact pids

/-! ### Parents -/

def Point.orphaned : Point n → Option ℕ
  | .exitLock _ => some 0
  | .reparent _ i => some i
  | .reparentWakeup _ pp => some (pp.val + 1)
  | .exitWakeup _ | .exitAcquire .. | .exitZombie .. | .exitWaitUnlock _ | .exitSched => some n
  | _ => none

def orphaned : KernelPc n → Option ℕ
  | .main m | .yield _ m | .sleep _ _ _ m => m.orphaned
  | .wakeup _ _ m | .wakeupTest _ _ m | .wakeupRelease _ _ m => m.orphaned
  | .dead => some n

/-- A parent is the creator or init, and a process that has passed on its children has none. -/
structure Family (initproc : Fin n) (state : Fin n → Procstate) (data : Data n)
    (pc : Fin n → KernelPc n) : Prop where
  childless : ∀ q k j, orphaned (pc q) = some k → j.val < k → data.parent j ≠ some q
  lives : orphaned (pc initproc) = none
  lineage : ∀ j q, data.parent j = some q → q = initproc ∨ data.creator j = data.pid q
  unparented : ∀ i, state i = .UNUSED → data.parent i = none
  reaped : ∀ r ∈ data.reaps, r.parent = some r.reaper ∧
    (r.reaper = initproc ∨ r.reaperPid = r.creator)

theorem Family.orphan_of_dead {state : Fin n → Procstate} {data : Data n}
    {pc : Fin n → KernelPc n} (family : Family initproc state data pc) {q : Fin n}
    (dead : pc q = .dead) (j : Fin n) : data.parent j ≠ some q :=
  family.childless q n j (by rw [dead]; rfl) j.isLt

section Family

variable {state state' : Fin n → Procstate} {data data' : Data n} {pc pc' : Fin n → KernelPc n}

theorem Family.step (family : Family initproc state data pc) (others : Others p pc pc')
    (childless : ∀ k j, orphaned (pc' p) = some k → j.val < k → data'.parent j ≠ some p)
    (lives : p = initproc → orphaned (pc' p) = none)
    (parents : ∀ j q, data'.parent j = some q → q = initproc ∨ q = p ∨ data.parent j = some q)
    (lineage : ∀ j q, data'.parent j = some q → q = initproc ∨ data'.creator j = data'.pid q)
    (unparented : ∀ i, state' i = .UNUSED → data'.parent i = none)
    (reaped : ∀ r ∈ data'.reaps, r ∈ data.reaps ∨ r.parent = some r.reaper ∧
      (r.reaper = initproc ∨ r.reaperPid = r.creator)) :
    Family initproc state' data' pc' := by
  have alive : orphaned (pc' initproc) = none := by
    by_cases same : initproc = p
    · rw [same]
      exact lives same.symm
    · rcases others initproc same with kept | ⟨-, started⟩
      · rw [kept]
        exact family.lives
      · rw [started]
        rfl
  refine ⟨fun q k j found below parent => ?_, alive, lineage, unparented, fun r member => ?_⟩
  · by_cases same : q = p
    · subst q
      exact childless k j found below parent
    · rcases parents j q parent with rfl | self | before
      · simp [alive] at found
      · exact same self
      · rcases others q same with kept | ⟨-, started⟩
        · rw [kept] at found
          exact family.childless q k j found below before
        · simp [started, orphaned, Point.orphaned] at found
  · rcases reaped r member with before | now
    · exact family.reaped r before
    · exact now

theorem Family.calm (family : Family initproc state data pc) (others : Others p pc pc')
    (calm : orphaned (pc' p) = none)
    (parents : ∀ j q, data'.parent j = some q → q = initproc ∨ q = p ∨ data.parent j = some q)
    (lineage : ∀ j q, data'.parent j = some q → q = initproc ∨ data'.creator j = data'.pid q)
    (unparented : ∀ i, state' i = .UNUSED → data'.parent i = none)
    (reaped : ∀ r ∈ data'.reaps, r ∈ data.reaps ∨ r.parent = some r.reaper ∧
      (r.reaper = initproc ∨ r.reaperPid = r.creator)) :
    Family initproc state' data' pc' := by
  refine family.step others ?_ (fun _ => calm) parents lineage unparented reaped
  intro k j found
  rw [calm] at found
  cases found

theorem Family.free {np : Fin n} (family : Family initproc state data pc)
    (others : Others p pc pc') (calm : orphaned (pc' p) = none)
    (gone : ∀ j, data.parent j ≠ some np) (orphan : data'.parent np = none)
    (apart : ∀ i, i ≠ np → data'.parent i = data.parent i ∧ data'.creator i = data.creator i ∧
      data'.pid i = data.pid i ∧ state' i = state i)
    (reaped : ∀ r ∈ data'.reaps, r ∈ data.reaps ∨ r.parent = some r.reaper ∧
      (r.reaper = initproc ∨ r.reaperPid = r.creator)) :
    Family initproc state' data' pc' := by
  have old : ∀ j q, data'.parent j = some q → j ≠ np ∧ data.parent j = some q := by
    intro j q child
    by_cases same : j = np
    · subst j
      simp [orphan] at child
    · exact ⟨same, (apart j same).1 ▸ child⟩
  refine family.calm others calm (fun j q child => .inr (.inr (old j q child).2))
    (fun j q child => ?_) (fun i free => ?_) reaped
  · obtain ⟨other, before⟩ := old j q child
    have parent : q ≠ np := by
      rintro rfl
      exact gone j before
    rw [(apart j other).2.1, (apart q parent).2.2.1]
    exact family.lineage j q before
  · by_cases same : i = np
    · rw [same]
      exact orphan
    · obtain ⟨parent, -, -, state⟩ := apart i same
      rw [parent]
      exact family.unparented i (state ▸ free)

theorem Family.quiet (family : Family initproc state data pc) (others : Others p pc pc')
    (fields : data'.parent = data.parent ∧ data'.creator = data.creator ∧ data'.pid = data.pid ∧
      data'.reaps = data.reaps)
    (unused : ∀ i, state' i = .UNUSED → state i = .UNUSED)
    (stays : orphaned (pc' p) = orphaned (pc p)) : Family initproc state' data' pc' := by
  obtain ⟨parent, creator, pid, reaps⟩ := fields
  refine family.step others (fun k j found below => ?_) (fun self => ?_) (fun j q child => ?_)
    (fun j q child => ?_) (fun i free => ?_) fun r member => .inl ?_
  · rw [parent]
    exact family.childless p k j (stays ▸ found) below
  · rw [stays, self]
    exact family.lives
  · exact .inr (.inr (parent ▸ child))
  · rw [creator, pid]
    exact family.lineage j q (parent ▸ child)
  · rw [parent]
    exact family.unparented i (unused i free)
  · rwa [reaps] at member

theorem Family.adopt {np : Fin n} (family : Family initproc state data pc)
    (others : Others p pc pc') (calm : orphaned (pc' p) = none) (used : state np = .USED) :
    Family initproc state (data.adopt p np) pc' := by
  refine family.calm others calm (fun j q child => ?_) (fun j q child => ?_) (fun i free => ?_)
    fun r member => .inl member
  · by_cases same : j = np
    · subst j
      exact .inr (.inl (by simpa [Data.adopt] using child.symm))
    · exact .inr (.inr (by simpa [Data.adopt, same] using child))
  · by_cases same : j = np
    · subst j
      obtain rfl : p = q := by simpa [Data.adopt] using child
      exact .inr (by simp [Data.adopt])
    · simpa [Data.adopt, same] using
        family.lineage j q (by simpa [Data.adopt, same] using child)
  · have other : i ≠ np := by
      rintro rfl
      rw [free] at used
      cases used
    simpa [Data.adopt, other] using family.unparented i free

theorem Family.reparent {pp : Fin n} (family : Family initproc state data pc)
    (others : Others p pc pc') (mortal : p ≠ initproc) (child : data.parent pp = some p)
    (found : orphaned (pc p) = some pp.val) (moves : orphaned (pc' p) = some (pp.val + 1)) :
    Family initproc state
      { data with parent := Function.update data.parent pp (some initproc) } pc' := by
  have adopted : ∀ j q, Function.update data.parent pp (some initproc) j = some q →
      q = initproc ∨ data.parent j = some q := by
    intro j q parent
    by_cases same : j = pp
    · subst j
      exact .inl (by simpa using parent.symm)
    · exact .inr (by rwa [Function.update_of_ne same] at parent)
  refine family.step others (fun k j later below => ?_) (fun self => absurd self mortal)
    (fun j q parent => (adopted j q parent).imp id .inr)
    (fun j q parent => (adopted j q parent).elim .inl (family.lineage j q)) (fun i free => ?_)
    fun r member => .inl member
  · obtain rfl : pp.val + 1 = k := Option.some.inj (moves.symm.trans later)
    by_cases same : j = pp
    · subst j
      simpa using Ne.symm mortal
    · have apart : j.val ≠ pp.val := fun equal => same (Fin.ext equal)
      simpa [same] using family.childless p pp.val j found (by omega)
  · have apart : i ≠ pp := by
      rintro rfl
      simp [family.unparented i free] at child
    simpa [apart] using family.unparented i free

end Family

/-- What one statement does to the parents. A slot whose pid changes belongs to no running
process, so it is nobody's parent. -/
theorem Family.stmt {state : Fin n → Procstate} {data : Data n} {pc : Fin n → KernelPc n}
    {input : Input} {m : Point n} {instr : KernelInstr n}
    (family : Family initproc state data pc) (here : pc p = .main m)
    (others : Others p pc (Function.update (instr.others pc) p instr.next))
    (dead : ∀ q, state q = .UNUSED ∨ state q = .USED → pc q = .dead)
    (used : ∀ np, m.builds = some np → state np = .USED)
    (freed : ∀ call pp, m = .waitTest call pp → data.parent pp = some p ∧
      (state pp = .ZOMBIE → pc pp = .dead))
    (stmt : Stmt initproc p state data input m instr) :
    Family initproc (instr.state state) (instr.data data)
      (Function.update (instr.others pc) p instr.next) := by
  have quiet : orphaned instr.next = m.orphaned → (instr.data data).parent = data.parent →
      (instr.data data).creator = data.creator → (instr.data data).pid = data.pid →
      (instr.data data).reaps = data.reaps →
      (∀ i, instr.state state i = .UNUSED → state i = .UNUSED) →
      Family initproc (instr.state state) (instr.data data)
        (Function.update (instr.others pc) p instr.next) := by
    intro stays parent creator pid reaps unused
    refine family.quiet others ⟨parent, creator, pid, reaps⟩ unused ?_
    rw [Function.update_self, stays, here]
    rfl
  have before : ∀ k j, m.orphaned = some k → j.val < k → data.parent j ≠ some p :=
    fun k j found => family.childless p k j (by rw [here]; exact found)
  have mortal : ∀ k, m.orphaned = some k → p ≠ initproc := by
    rintro k found rfl
    have lives := family.lives
    rw [here] at lives
    simp [orphaned, found] at lives
  have kept : ∀ {q later : _}, later ≠ .UNUSED → ∀ i, Function.update state q later i = .UNUSED →
      state i = .UNUSED := by
    intro q later used i unused
    by_cases same : i = q
    · subst i
      simp [used] at unused
    · rwa [Function.update_of_ne same] at unused
  have calm : orphaned instr.next = none →
      orphaned (Function.update (instr.others pc) p instr.next p) = none := by
    rw [Function.update_self]
    exact id
  cases stmt with
  | enterExit status alive =>
      refine family.step others ?_ (fun self => absurd self alive)
        (fun j q child => .inr (.inr child)) family.lineage family.unparented
        fun r member => .inl member
      rintro k j found below
      obtain rfl : 0 = k := by simpa [Instr.next, orphaned, Point.orphaned] using found
      omega
  | allocproc kind np unused =>
      have gone := family.orphan_of_dead (dead np (.inl unused))
      refine family.calm others (calm rfl) (fun j q child => .inr (.inr child))
        (fun j q child => ?_) (fun i free => family.unparented i (kept (by simp) i free))
        fun r member => .inl member
      have other : q ≠ np := by
        rintro rfl
        exact gone j child
      simpa [Instr.data, Data.allocproc, other] using family.lineage j q child
  | abandon kind np =>
      refine family.free others (calm rfl) (family.orphan_of_dead (dead np (.inr (used np rfl))))
        (by simp [Instr.data, Data.freeproc]) (fun i other => ?_) fun r member => .inl member
      simp [Instr.state, Instr.data, Data.freeproc, other]
  | adopt kind np pid => exact family.adopt others (calm rfl) (used np rfl)
  | spawn kind np pid => exact quiet rfl rfl rfl rfl rfl (kept (by simp))
  | reparent status pp child =>
      exact family.reparent others (mortal _ rfl) child (by rw [here]; rfl)
        (by rw [Function.update_self]; rfl)
  | reparentSkip status pp other =>
      refine family.step others (fun k j found below => ?_)
        (fun self => absurd self (mortal _ rfl)) (fun j q child => .inr (.inr child))
        family.lineage family.unparented fun r member => .inl member
      obtain rfl : pp.val + 1 = k := by
        simpa [Instr.next, Instr.others, orphaned, Point.orphaned] using found
      by_cases same : j = pp
      · rw [same]
        exact other
      · have apart : j.val ≠ pp.val := fun equal => same (Fin.ext equal)
        exact before pp.val j rfl (by omega)
  | reparentEnd status i past =>
      refine family.step others (fun k j _ _ => before i j rfl (by omega))
        (fun self => absurd self (mortal _ rfl)) (fun j q child => .inr (.inr child))
        family.lineage family.unparented fun r member => .inl member
  | zombie status parent => exact quiet rfl rfl rfl rfl rfl (kept (by simp))
  | postWake pid signum q sleeping =>
      exact quiet rfl rfl rfl rfl rfl (kept (by simp))
  | reap call pp zombie =>
      obtain ⟨child, off⟩ := freed call pp rfl
      refine family.free others (calm rfl) (family.orphan_of_dead (off zombie))
        (by simp [Instr.data, Data.reap, Data.freeproc]) (fun i other => ?_) fun r member => ?_
      · simp [Instr.state, Instr.data, Data.reap, Data.freeproc, other]
      · rcases List.mem_cons.mp member with rfl | earlier
        · exact .inr ⟨child, (family.lineage pp p child).imp id Eq.symm⟩
        · exact .inl earlier
  | mark kind np => cases kind <;> exact quiet rfl rfl rfl rfl rfl fun _ free => free
  | obtained kind pid =>
      cases kind <;> exact quiet rfl rfl rfl rfl rfl fun _ free => free
  | joined call pid =>
      cases call <;> exact quiet rfl rfl rfl rfl rfl fun _ free => free
  | waitDie call | waitStay call | waitKilled call =>
      exact quiet rfl rfl rfl rfl rfl fun _ free => free
  | _ => exact quiet rfl rfl rfl rfl rfl fun _ free => free

end OsLab.Kernel.Lifecycle
