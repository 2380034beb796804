import OsLab.Kernel.WaitJoin
import Mathlib.Data.List.Nodup

/-!
Every process is reaped once and its pid returned once, and nobody sleeps through
the exit it waits for.
-/

namespace OsLab.Kernel.Lifecycle

open OsLab.Library OsLab.Kernel.Threads

variable {n : ℕ} {initproc p : Fin n} {s t : KernelState n}

/-! ### What has been returned -/

def Point.pending : Point n → Option Int
  | .waitFreed _ _ pid | .waitDone _ pid | .waitReturn _ pid => some pid
  | _ => none

structure Ledger (reaps : List (Reap n)) (returned : List (Fin n × Int))
    (pc : Fin n → KernelPc n) : Prop where
  back : ∀ q x, (q, x) ∈ returned → ∃ r ∈ reaps, r.reaper = q ∧ r.pid = x
  once : (returned.map Prod.snd).Nodup
  due : ∀ q x, atPoint Point.pending (pc q) = some x →
    (∃ r ∈ reaps, r.reaper = q ∧ r.pid = x) ∧ x ∉ returned.map Prod.snd
  all : ∀ r ∈ reaps, (r.reaper, r.pid) ∈ returned ∨
    atPoint Point.pending (pc r.reaper) = some r.pid

section Ledger

variable {reaps : List (Reap n)} {returned : List (Fin n × Int)} {pc pc' : Fin n → KernelPc n}

theorem Ledger.quiet (ledger : Ledger reaps returned pc) (others : Others p pc pc')
    (same : atPoint Point.pending (pc' p) = atPoint Point.pending (pc p)) :
    Ledger reaps returned pc' := by
  have kept : ∀ q, atPoint Point.pending (pc' q) = atPoint Point.pending (pc q) := by
    intro q
    by_cases self : q = p
    · rwa [self]
    · exact atPoint_of_others others Point.pending rfl self
  refine ⟨ledger.back, ledger.once, fun q x found => ?_, fun r member => ?_⟩
  · exact ledger.due q x ((kept q).symm.trans found)
  · rw [kept]
    exact ledger.all r member

theorem Ledger.reap (ledger : Ledger reaps returned pc) (others : Others p pc pc') {r : Reap n}
    (mine : r.reaper = p) (fresh : ∀ earlier ∈ reaps, earlier.pid ≠ r.pid)
    (idle : atPoint Point.pending (pc p) = none)
    (owes : atPoint Point.pending (pc' p) = some r.pid) : Ledger (r :: reaps) returned pc' := by
  refine ⟨fun q x member => ?_, ledger.once, fun q x found => ?_, fun earlier member => ?_⟩
  · obtain ⟨earlier, member, own⟩ := ledger.back q x member
    exact ⟨earlier, List.mem_cons_of_mem _ member, own⟩
  · by_cases same : q = p
    · subst q
      obtain rfl : r.pid = x := Option.some.inj (owes.symm.trans found)
      refine ⟨⟨r, List.mem_cons_self, mine, rfl⟩, fun again => ?_⟩
      obtain ⟨⟨q, x⟩, member, equal⟩ := List.mem_map.mp again
      obtain ⟨earlier, before, -, own⟩ := ledger.back q x member
      exact fresh earlier before (own.trans equal)
    · rw [atPoint_of_others others Point.pending rfl same] at found
      obtain ⟨⟨earlier, member, own⟩, unreturned⟩ := ledger.due q x found
      exact ⟨⟨earlier, List.mem_cons_of_mem _ member, own⟩, unreturned⟩
  · rcases List.mem_cons.mp member with rfl | before
    · exact .inr (mine ▸ owes)
    · rcases ledger.all earlier before with done | still
      · exact .inl done
      · have other : earlier.reaper ≠ p := by
          intro self
          simp [self, idle] at still
        exact .inr (by rwa [atPoint_of_others others Point.pending rfl other])

theorem Ledger.joined (ledger : Ledger reaps returned pc) (others : Others p pc pc')
    (once : (reaps.map Reap.pid).Nodup) {x : Int}
    (owed : atPoint Point.pending (pc p) = some x)
    (idle : atPoint Point.pending (pc' p) = none) : Ledger reaps ((p, x) :: returned) pc' := by
  obtain ⟨⟨r, member, mine, named⟩, unreturned⟩ := ledger.due p x owed
  refine ⟨fun q y found => ?_, ?_, fun q y found => ?_, fun earlier before => ?_⟩
  · rcases List.mem_cons.mp found with same | earlier
    · obtain ⟨rfl, rfl⟩ := Prod.mk.inj same
      exact ⟨r, member, mine, named⟩
    · exact ledger.back q y earlier
  · rw [List.map_cons, List.nodup_cons]
    exact ⟨unreturned, ledger.once⟩
  · have other : q ≠ p := by
      rintro rfl
      simp [idle] at found
    rw [atPoint_of_others others Point.pending rfl other] at found
    obtain ⟨⟨r', member', mine', named'⟩, fresh⟩ := ledger.due q y found
    refine ⟨⟨r', member', mine', named'⟩, fun again => ?_⟩
    rcases List.mem_cons.mp again with same | earlier
    · have equal : r' = r :=
        List.inj_on_of_nodup_map once member' member (by rw [named', named, same])
      exact other (mine'.symm.trans (equal ▸ mine))
    · exact fresh earlier
  · rcases ledger.all earlier before with done | still
    · exact .inl (List.mem_cons_of_mem _ done)
    · by_cases same : earlier.reaper = p
      · rw [same, owed] at still
        obtain rfl := Option.some.inj still
        exact .inl (by rw [same]; exact List.mem_cons_self)
      · exact .inr (by rwa [atPoint_of_others others Point.pending rfl same])

theorem Ledger.stmt {state : Fin n → Procstate} {data : Data n} {input : Input} {m : Point n}
    {instr : KernelInstr n} (ledger : Ledger data.reaps data.returned pc)
    (pids : Pids state data.pid data.nextpid data.reaps data.created) (here : pc p = .main m)
    (others : Others p pc (Function.update (instr.others pc) p instr.next))
    (stmt : Stmt initproc p state data input m instr) :
    Ledger (instr.data data).reaps (instr.data data).returned
      (Function.update (instr.others pc) p instr.next) := by
  have quiet : atPoint Point.pending instr.next = m.pending →
      Ledger data.reaps data.returned (Function.update (instr.others pc) p instr.next) := by
    intro same
    refine ledger.quiet others ?_
    rw [Function.update_self, here]
    exact same
  cases stmt with
  | reap call pp dead =>
      refine ledger.reap others rfl (fun earlier member => ?_) (by rw [here]; rfl)
        (by rw [Function.update_self]; rfl)
      exact ((pids.gone earlier member).2 pp (by simp [dead])).symm
  | joined call pid =>
      have done : Ledger data.reaps ((p, pid) :: data.returned)
          (Function.update pc p (.main .user)) :=
        ledger.joined others pids.once (by rw [here]; rfl) (by rw [Function.update_self]; rfl)
      cases call <;> exact done
  | mark kind np => cases kind <;> exact quiet rfl
  | obtained kind pid => cases kind <;> exact quiet rfl
  | _ => exact quiet rfl

end Ledger

/-! ### Every reachable state -/

structure Sound (initproc : Fin n) (s : KernelState n) : Prop where
  threads : (policy initproc).Inv s
  building : Building s.state s.data.pid s.data.parent s.pc
  pids : Pids s.state s.data.pid s.data.nextpid s.data.reaps s.data.created
  family : Family initproc s.state s.data s.pc
  waits : Waits initproc s.state s.data s.pc
  ledger : Ledger s.data.reaps s.data.returned s.pc

theorem boot_sound (initproc : Fin n) : Sound initproc (boot initproc) := by
  have pc : ∀ q, (boot initproc).pc q = .dead ∨ (boot initproc).pc q = .yield .off .user := by
    intro q
    by_cases first : q = initproc <;> simp [boot, first]
  have nowhere : ∀ {α : Type} (f : Point n → Option α) q, f .user = none →
      atPoint f ((boot initproc).pc q) = none := by
    intro α f q none
    rcases pc q with here | here <;> simp [here, atPoint, none]
  refine ⟨⟨fun lock q => ?_, fun q => ?_, fun q => ?_, fun q => ?_, fun q chan r sweeps => ?_⟩,
    ⟨?_, ?_, ?_, ?_⟩, ⟨fun i active => ?_, fun i j one two _ => ?_, ?_, ?_, ?_⟩,
    ⟨?_, ?_, ?_, ?_, ?_⟩, ⟨fun q => ?_, fun q call committed => ?_⟩, ⟨?_, ?_, ?_, ?_⟩⟩
  · rcases pc q with here | here <;> rw [here] <;> simp [Program.holds, boot]
  · by_cases first : q = initproc <;> simp [boot, first, Pc.Fits]
  · rcases pc q with here | here <;> simp [here, Pc.OnChannel]
  · rcases pc q with here | here <;> simp [here, Policy.Returns, program, held, policy, Point.zombie]
  · rcases pc q with here | here <;> simp [here, Pc.Sweeps] at sweeps
  · simp [nowhere Point.builds _ rfl]
  · simp [nowhere Point.builds _ rfl]
  · simp [nowhere Point.carries _ rfl]
  · simp [nowhere Point.fresh _ rfl]
  · by_cases first : i = initproc <;> simp_all [boot]
  · by_cases first : i = initproc <;> by_cases second : j = initproc <;> simp_all [boot]
  · simp [boot]
  · simp [boot]
  · simp [boot]
  · simp [boot]
  · simp [boot, orphaned, Point.orphaned]
  · simp [boot]
  · simp [boot]
  · simp [boot]
  · rcases pc q with here | here <;> rw [here] <;>
      exact .idle _ (by simp) (by simp [Pc.Waking]) ⟨rfl, rfl, rfl, rfl⟩ (by simp)
  · rcases pc q with here | here <;> simp [here, Pc.Commits] at committed
  · simp [boot]
  · simp [boot]
  · simp [nowhere Point.pending _ rfl]
  · simp [boot]

theorem atPoint_flow {α : Type} (f : Point n → Option α) {state : Fin n → Procstate}
    {data : Data n} {pc next : KernelPc n} (knows : Knows initproc state data p pc)
    (flow : (program initproc).Flow p pc next) (scan : ∀ call, f (.waitScan call 0 false) = none)
    (reparent : ∀ status i, f (.reparent status i) = none)
    (exit : ∀ status parent, f (.exitAcquire status parent) = none) :
    atPoint f next = atPoint f pc := by
  cases flow with
  | slept =>
      obtain ⟨-, call, rfl⟩ := knows.sleeps _ _ _ _ rfl
      exact scan call
  | woken =>
      rcases knows.wakes _ _ ⟨rfl, rfl⟩ with ⟨status, pp, -, rfl⟩ | ⟨status, rfl⟩
      · exact reparent status _
      · exact exit status _
  | waking first second => cases pc <;> cases next <;> simp_all [Pc.Waking, atPoint]
  | _ => rfl

theorem orphaned_flow {pc next : KernelPc n} (flow : (program initproc).Flow p pc next) :
    orphaned next = orphaned pc := by
  cases flow with
  | waking first second => cases pc <;> cases next <;> simp_all [Pc.Waking, orphaned]
  | _ => rfl

theorem Sound.internal (sound : Sound initproc s) (threads : (policy initproc).Inv t)
    (internal : (program initproc).Internal s t p)
    (commits : ∀ q chan, (t.pc q).Commits (t.state q) chan → (s.pc q).Commits (s.state q) chan ∨
      q = p ∧ ∃ lk ret, s.pc p = .sleep .release chan lk ret) : Sound initproc t := by
  obtain ⟨next, moved, flow⟩ := internal.pc
  have self : t.pc p = next := by rw [moved, Function.update_self]
  have others : Others p s.pc t.pc := moved ▸ others_update s.pc p next
  have live := internal.live sound.threads
  have data := internal.data
  have knows := sound.waits.knows p
  have kept : ∀ i, (t.state i = .UNUSED ↔ s.state i = .UNUSED) ∧
      (t.state i = .USED ↔ s.state i = .USED) := by
    intro i
    rcases live i with same | ⟨before, after⟩
    · simp [same]
    · rcases before with before | before | before <;> rcases after with after | after | after <;>
        simp [before, after]
  refine ⟨threads, ?_, ?_, ?_, sound.waits.internal sound.threads internal commits, ?_⟩
  · rw [data]
    have still : Building s.state s.data.pid s.data.parent t.pc := by
      refine sound.building.quiet others ?_ ?_ ?_ <;> rw [self]
      · exact fun np found => (atPoint_flow Point.builds knows flow (fun _ => rfl) (fun _ _ => rfl)
          fun _ _ => rfl) ▸ found
      · exact fun np x found => (atPoint_flow Point.carries knows flow (fun _ => rfl)
          (fun _ _ => rfl) fun _ _ => rfl) ▸ found
      · exact fun np found => (atPoint_flow Point.fresh knows flow (fun _ => rfl) (fun _ _ => rfl)
          fun _ _ => rfl) ▸ found
    exact ⟨fun q np found => ((kept np).2).mpr (still.used q np found), still.alone, still.carried,
      still.orphan⟩
  · rw [data]
    exact sound.pids.keep kept
  · refine sound.family.quiet others (by simp [data]) (fun i => ((kept i).1).mp) ?_
    rw [self]
    exact orphaned_flow flow
  · rw [data]
    refine sound.ledger.quiet others ?_
    rw [self]
    exact atPoint_flow Point.pending knows flow (fun _ => rfl) (fun _ _ => rfl) fun _ _ => rfl

theorem Sound.allowed (sound : Sound initproc s) {input : Input} {m : Point n}
    {instr : KernelInstr n} (here : s.pc p = .main m)
    (ran : (program initproc).code p m s.state s.data input = some instr) :
    (policy initproc).Allowed s p m instr :=
  Lifecycle.allowed sound.threads
    (fun np builds => sound.building.used p np (by rw [here]; exact builds)) here (code_stmt ran)

theorem Sound.others (sound : Sound initproc s) {m : Point n} {instr : KernelInstr n}
    {input : Input} (here : s.pc p = .main m) (stmt : Stmt initproc p s.state s.data input m instr) :
    Others p s.pc (Function.update (instr.others s.pc) p instr.next) := by
  cases stmt with
  | spawn kind np pid =>
      intro q other
      rw [Function.update_of_ne other]
      by_cases same : q = np
      · subst q
        have used := sound.building.used p np (by rw [here]; rfl)
        exact .inr ⟨sound.threads.dead_of_unstarted (.inr used), by simp [Instr.others]⟩
      · exact .inl (by simp [Instr.others, same])
  | _ => exact others_update s.pc p _

theorem Sound.stmt (sound : Sound initproc s) (threads : (policy initproc).Inv t) {input : Input}
    {m : Point n} {instr : KernelInstr n} (here : s.pc p = .main m)
    (stmt : Stmt initproc p s.state s.data input m instr) (performed : perform s p instr = some t)
    (commits : ∀ q chan, (t.pc q).Commits (t.state q) chan → (s.pc q).Commits (s.state q) chan) :
    Sound initproc t := by
  obtain ⟨data, state, moved⟩ := perform_effect performed
  have others := sound.others here stmt
  have used : ∀ np, m.builds = some np → s.state np = .USED :=
    fun np builds => sound.building.used p np (by rw [here]; exact builds)
  have running : m.zombie = false → s.state p = .RUNNING := by
    intro alive
    have fits := sound.threads.fits p
    rw [here] at fits
    simpa [Pc.Fits, policy, alive] using fits
  have freed : ∀ call pp, m = .waitTest call pp → s.data.parent pp = some p ∧
      (s.state pp = .ZOMBIE → s.pc pp = .dead) := by
    rintro call pp rfl
    have known := (sound.waits.knows p).matched call pp (by rw [here]; rfl)
    exact ⟨known.1, dead_of_tested sound.threads here⟩
  refine ⟨threads, ?_, ?_, ?_, ?_, ?_⟩
  · rw [data, state, moved]
    exact sound.building.stmt here others sound.family.unparented running stmt
  · rw [data, state]
    exact sound.pids.stmt used (fun np x carries => sound.building.carried p np x
      (by rw [here]; exact carries)) running stmt
  · rw [data, state, moved]
    exact sound.family.stmt here others (fun q => sound.threads.dead_of_unstarted) used freed stmt
  · exact sound.waits.stmt sound.threads sound.building sound.family here stmt (moved ▸ others)
      performed commits
  · rw [data, moved]
    exact sound.ledger.stmt sound.pids here others stmt

theorem Sound.step (sound : Sound initproc s) {event : Event Input}
    (taken : (program initproc).step s (p, event) = some t) : Sound initproc t := by
  have allowed : ∀ m input instr, s.pc p = .main m → event = .run input →
      (program initproc).code p m s.state s.data input = some instr →
      (policy initproc).Allowed s p m instr := fun m input instr here _ ran =>
    sound.allowed here ran
  have threads := sound.threads.step allowed taken
  have commits : ∀ q chan, (t.pc q).Commits (t.state q) chan →
      (s.pc q).Commits (s.state q) chan ∨
        q = p ∧ ∃ lk ret, s.pc p = .sleep .release chan lk ret := fun _ _ =>
    Policy.commits_of_step allowed taken
  rcases (program initproc).step_cases taken with
    ⟨m, input, instr, here, -, ran, performed⟩ | internal
  · refine sound.stmt threads here (code_stmt ran) performed fun q chan committed => ?_
    rcases commits q chan committed with before | ⟨-, lk, ret, asleep⟩
    · exact before
    · simp [here] at asleep
  · exact sound.internal threads internal commits

theorem sound_of_reachable (reachable : (system initproc).Reachable s) : Sound initproc s := by
  refine System.Reachable.invariant ?_ ?_ reachable
  · rintro _ rfl
    exact boot_sound initproc
  · rintro before ⟨q, event⟩ after sound taken
    exact sound.step taken

/-! ### What it means for the calls -/

structure ExactlyOnce (initproc : Fin n) (s : KernelState n) : Prop where
  once : (s.data.returned.map Prod.snd).Nodup
  byReaper : ∀ q x, (q, x) ∈ s.data.returned → ∃ r ∈ s.data.reaps, r.reaper = q ∧ r.pid = x
  freedOnce : (s.data.reaps.map Reap.pid).Nodup
  byParent : ∀ r ∈ s.data.reaps, r.parent = some r.reaper ∧
    (r.reaper = initproc ∨ r.reaperPid = r.creator)
  returns : ∀ r ∈ s.data.reaps, (r.reaper, r.pid) ∈ s.data.returned ∨
    atPoint Point.pending (s.pc r.reaper) = some r.pid
  freed : ∀ x ∈ s.data.created, x ∈ s.data.reaps.map Reap.pid ↔
    ∀ i, s.state i ≠ .UNUSED → s.data.pid i ≠ x

/-- With `wait_lock` free, no process sleeps on its own channel in `kwait` or `kjoin` while a
child its call looks for is a ZOMBIE. -/
def NoLostWakeup (s : KernelState n) : Prop :=
  s.owner waitLock = none → ∀ q call, s.state q = .SLEEPING → s.chan q = some q →
    sleeper (s.pc q) = some call → ∀ i, call.Matches s.data q i → s.state i ≠ .ZOMBIE

theorem Sound.exactlyOnce (sound : Sound initproc s) : ExactlyOnce initproc s := by
  refine ⟨sound.ledger.once, sound.ledger.back, sound.pids.once, sound.family.reaped,
    sound.ledger.all, fun x member => ⟨fun reaped i active own => ?_, fun absent => ?_⟩⟩
  · obtain ⟨r, earlier, named⟩ := List.mem_map.mp reaped
    exact (sound.pids.gone r earlier).2 i active (own.trans named.symm)
  · rcases sound.pids.made x member with reaped | ⟨i, active, -, own⟩
    · exact reaped
    · exact absurd own (absent i active)

theorem Rousing.holds {pc : KernelPc n} {q : Fin n} (rousing : Rousing initproc q pc)
    (returns : (policy initproc).Returns p pc) : (program initproc).holds p pc waitLock := by
  rcases rousing with ⟨-, status, pp, rfl⟩ | ⟨ret, waking⟩
  · simp [Program.holds, program, held]
  · cases pc <;> simp only [Pc.Waking] at waking
    all_goals
      have guard := returns.1
      simp_all [Program.holds, waitLock, policy]

theorem Sound.noLostWakeup (sound : Sound initproc s) : NoLostWakeup s := by
  intro free q call sleeping on sleeps i own zombie
  have committed := sound.threads.commits_of_sleeping sleeping on
  obtain ⟨h, rousing⟩ := sound.waits.wake q call committed sleeps i own zombie
  exact sound.threads.owned.not_held free h (rousing.holds (sound.threads.returns h))

/-- Whatever the interleaving, a process is reaped once, by its parent, in a call that returns
its pid, and no parent sleeps through the exit it waits for. -/
theorem reaping_correct (reachable : (system initproc).Reachable s) :
    ExactlyOnce initproc s ∧ NoLostWakeup s :=
  ⟨(sound_of_reachable reachable).exactlyOnce, (sound_of_reachable reachable).noLostWakeup⟩

def startChild (p child : Fin n) (make : Spawn) : List (Fin n × Event Input) :=
  [(p, .dispatch), (p, .run .succeed), (p, .run (.call (.spawn make)))] ++
    List.replicate 14 (p, .run .succeed) ++ [(child, .dispatch), (child, .run .succeed)]

def exitChild (child : Fin n) : List (Fin n × Event Input) :=
  (child, .run (.call (.exit 0))) :: List.replicate 14 (child, .run .succeed)

def callWait (p : Fin n) (call : WaitCall) (steps : ℕ) : List (Fin n × Event Input) :=
  (p, .run (.call (.wait call))) :: List.replicate steps (p, .run .succeed)

/-- init forks, the child exits, and `kwait` frees it and returns its pid. -/
theorem reaping_correct_forkWait : ∃ s : KernelState 2, s.data.returned = [(0, 2)] ∧
    s.state 1 = .UNUSED ∧ ExactlyOnce 0 s ∧ NoLostWakeup s := by
  have sound : ∀ before label after, (program (0 : Fin 2)).step before label = some after →
      (system 0).step before label after := fun _ _ _ taken => taken
  have executed : (System.execute (program 0).step (boot (0 : Fin 2))
      (startChild 0 1 .fork ++ exitChild 1 ++ callWait 0 .wait 7)).map
      (fun s => (s.data.returned, s.state 1)) = some ([(0, 2)], .UNUSED) := by decide +kernel
  obtain ⟨s, run, ends⟩ := System.Run.existsOfExecute sound executed
  obtain ⟨returned, unused⟩ := Prod.mk.inj ends
  exact ⟨s, returned, unused, reaping_correct (run.reachable (.start rfl))⟩

end OsLab.Kernel.Lifecycle
