import OsLab.Kernel.Monitor
import Mathlib.Data.Int.Notation

/-!
The sleep locks of `sleeplock.c`, taken and released by any number of processes, with `kkill` waking
sleepers; a lock is released as in `brelse` and `iunlock`, which panic unless `holdingsleep`.
-/

namespace OsLab.Kernel.Sleeplock

open OsLab.Library OsLab.Kernel.Threads

inductive Call (B : Type)
  | acquiresleep (lk : B)
  | unlock (lk : B)
  | kkill (pid : ℤ)

inductive Point (n : ℕ) (B : Type)
  | user
  | acquireLk (lk : B)
  | acquireTest (lk : B)
  | acquireLocked (lk : B)
  | acquirePid (lk : B)
  | acquireRelease (lk : B)
  | holdingLk (lk : B)
  | holdingRead (lk : B)
  | holdingRelease (lk : B) (r : Bool)
  | holdingTest (lk : B) (r : Bool)
  | releaseLk (lk : B)
  | releaseLocked (lk : B)
  | releasePid (lk : B)
  | releaseWakeup (lk : B)
  | releaseRelease (lk : B)
  | panic (lk : B)
  | kill (pid : ℤ) (i : ℕ)
  | killTest (pid : ℤ) (q : Fin n)
  | killNext (pid : ℤ) (q : Fin n)
  | killDone (q : Fin n)

/-- `struct sleeplock` for each lock and the process identifiers, with a record of who has taken a
lock and not released it, and of the locks between the assignments to `locked` and `pid`. -/
structure Data (n : ℕ) (B : Type) where
  locked : B → Bool
  pid : B → ℤ
  procpid : Fin n → ℤ
  inside : Fin n → B → Bool
  between : B → Bool

variable {n : ℕ} {B : Type} [DecidableEq B]

namespace Data

def setInside (data : Data n B) (p : Fin n) (lk : B) (value : Bool) : Data n B :=
  { data with
    locked := Function.update data.locked lk value
    inside := Function.update data.inside p (Function.update (data.inside p) lk value)
    between := Function.update data.between lk true }

def setPid (data : Data n B) (lk : B) (pid : ℤ) : Data n B :=
  { data with
    pid := Function.update data.pid lk pid
    between := Function.update data.between lk false }

end Data

def held (_ : Fin n) : Point n B → List (Lock n B)
  | .acquireTest lk | .acquireLocked lk | .acquirePid lk | .acquireRelease lk
  | .holdingRead lk | .holdingRelease lk _ | .releaseLocked lk | .releasePid lk
  | .releaseWakeup lk | .releaseRelease lk => [.named lk]
  | .killTest _ q | .killNext _ q | .killDone q => [.proc q]
  | _ => []

/-- Each sleep lock has its own spinlock `lk->lk`. -/
def code (p : Fin n) (point : Point n B) (state : Fin n → Procstate) (data : Data n B)
    (call : Call B) : Option (Instr n B B (Point n B) (Data n B)) :=
  match point with
  | .user =>
      match call with
      | .acquiresleep lk => some (.goto data (.acquireLk lk))
      | .unlock lk => some (.goto data (.holdingLk lk))
      | .kkill pid => some (.goto data (.kill pid 0))
  | .acquireLk lk => some (.acquire (.named lk) (.acquireTest lk))
  | .acquireTest lk =>
      if data.locked lk then some (.sleep lk lk (.acquireTest lk))
      else some (.goto data (.acquireLocked lk))
  | .acquireLocked lk => some (.goto (data.setInside p lk true) (.acquirePid lk))
  | .acquirePid lk => some (.goto (data.setPid lk (data.procpid p)) (.acquireRelease lk))
  | .acquireRelease lk => some (.release (.named lk) .user)
  | .holdingLk lk => some (.acquire (.named lk) (.holdingRead lk))
  | .holdingRead lk =>
      some (.goto data (.holdingRelease lk (data.locked lk && data.pid lk == data.procpid p)))
  | .holdingRelease lk r => some (.release (.named lk) (.holdingTest lk r))
  | .holdingTest lk r => some (.goto data (if r then .releaseLk lk else .panic lk))
  | .releaseLk lk => some (.acquire (.named lk) (.releaseLocked lk))
  | .releaseLocked lk => some (.goto (data.setInside p lk false) (.releasePid lk))
  | .releasePid lk => some (.goto (data.setPid lk 0) (.releaseWakeup lk))
  | .releaseWakeup lk => some (.wakeup lk (.releaseRelease lk))
  | .releaseRelease lk => some (.release (.named lk) .user)
  | .panic _ => none
  | .kill pid i =>
      if bound : i < n then some (.acquire (.proc ⟨i, bound⟩) (.killTest pid ⟨i, bound⟩))
      else some (.goto data .user)
  | .killTest pid q =>
      if data.procpid q = pid then
        if state q = .SLEEPING then some (.setState q .RUNNABLE data (.killDone q))
        else some (.goto data (.killDone q))
      else some (.goto data (.killNext pid q))
  | .killNext pid q => some (.release (.proc q) (.kill pid (q.val + 1)))
  | .killDone q => some (.release (.proc q) .user)

def program : Program n B B (Point n B) (Data n B) (Call B) where
  held := held
  code := code

def start (procpid : Fin n → ℤ) : State n B B (Point n B) (Data n B) where
  owner _ := none
  state _ := .RUNNABLE
  chan _ := none
  pc _ := .yield .off .user
  data :=
    { locked := fun _ => false, pid := fun _ => 0, procpid := procpid, inside := fun _ _ => false,
      between := fun _ => false }

/-- `allocpid` gives every process a number of its own. -/
def system : System (State n B B (Point n B) (Data n B)) (Fin n × Event (Call B)) :=
  program.system fun state => ∃ procpid, Function.Injective procpid ∧ state = start procpid

def policy : Policy (program (n := n) (B := B)) where
  zombie _ := false
  guard lk := lk
  swept _ _ := False
  zombie_held := by simp
  swept_held _ _ _ swept := swept.elim

abbrev SleepState (n : ℕ) (B : Type) := State n B B (Point n B) (Data n B)

/-! ### The invariant -/

/-- A lock is locked while one process is inside, and `pid` says which. -/
structure Data.Sound (data : Data n B) : Prop where
  distinct : Function.Injective data.procpid
  locked : ∀ lk, data.locked lk = true ↔ ∃ p, data.inside p lk = true
  alone : ∀ p q lk, data.inside p lk = true → data.inside q lk = true → p = q
  pid : ∀ p lk, data.between lk = false → data.inside p lk = true → data.pid lk = data.procpid p

def Own (p : Fin n) (m : Point n B) (data : Data n B) : Prop :=
  match m with
  | .holdingRelease lk r | .holdingTest lk r => data.inside p lk = r
  | .releaseLk lk | .releaseLocked lk | .acquirePid lk => data.inside p lk = true
  | .panic lk | .releasePid lk => data.inside p lk = false
  | _ => True

def Knows (m : Point n B) (data : Data n B) : Prop :=
  match m with
  | .acquireTest lk | .acquireRelease lk | .holdingRead lk | .holdingRelease lk _
  | .releaseLocked lk | .releaseRelease lk => data.between lk = false
  | .acquireLocked lk | .releaseWakeup lk => data.between lk = false ∧ data.locked lk = false
  | .releasePid lk => data.locked lk = false
  | _ => True

def monitor : Monitor (policy (n := n) (B := B)) where
  sound := Data.Sound
  rest lk data := data.between lk = false
  own := Own
  knows := Knows
  waits data lk := data.locked lk = true
  waking m _ chan := m = .releasePid chan ∨ m = .releaseWakeup chan
  under
    | .acquireTest lk | .acquireLocked lk | .acquirePid lk | .acquireRelease lk
    | .holdingRead lk | .holdingRelease lk _ | .releaseLocked lk | .releasePid lk
    | .releaseWakeup lk | .releaseRelease lk => some lk
    | _ => none
  unknown m data free := by cases m <;> simp_all [Knows]
  under_held p m lk locked := by cases m <;> simp_all [program, held]
  waking_held p m data chan waking := by
    rcases waking with rfl | rfl <;> simp [program, held, policy]

variable {s : SleepState n B} {p : Fin n} {m : Point n B} {lk : B}

theorem inside_setInside (data : Data n B) (p q : Fin n) (lk other : B) (value : Bool) :
    (data.setInside p lk value).inside q other =
      if q = p ∧ other = lk then value else data.inside q other := by
  by_cases same : q = p
  · subst q
    by_cases target : other = lk
    · simp [Data.setInside, target]
    · simp [Data.setInside, target]
  · simp [Data.setInside, same]

theorem locked_setInside (data : Data n B) (p : Fin n) (lk other : B) (value : Bool) :
    (data.setInside p lk value).locked other = if other = lk then value else data.locked other := by
  by_cases target : other = lk <;> simp [Data.setInside, target]

theorem setInside_keeps (data : Data n B) (p : Fin n) {lk other : B} (different : other ≠ lk)
    (value : Bool) : monitor.Keeps data (data.setInside p lk value) other := by
  refine ⟨fun rest => ?_, fun m under known => ?_, fun chan same waits => ?_, fun _ _ _ => id⟩
  · simpa [monitor, Data.setInside, different] using rest
  · cases m <;> simp only [monitor, Option.some.injEq, reduceCtorEq] at under
    all_goals
      subst under
      first
        | exact trivial
        | simpa [monitor, Knows, Data.setInside, different] using known
  · obtain rfl : chan = other := same
    simpa [monitor, Data.setInside, different] using waits

theorem setPid_keeps (data : Data n B) {lk other : B} (different : other ≠ lk) (pid : ℤ) :
    monitor.Keeps data (data.setPid lk pid) other := by
  refine ⟨fun rest => ?_, fun m under known => ?_, fun chan _ waits => waits, fun _ _ _ => id⟩
  · simpa [monitor, Data.setPid, different] using rest
  · cases m <;> simp only [monitor, Option.some.injEq, reduceCtorEq] at under
    all_goals
      subst under
      first
        | exact trivial
        | simpa [monitor, Knows, Data.setPid, different] using known

theorem own_setInside {data : Data n B} {p q : Fin n} {m : Point n B} (other : q ≠ p) (lk : B)
    (value : Bool) (own : Own q m data) : Own q m (data.setInside p lk value) := by
  cases m <;> first
    | exact trivial
    | simpa [Own, inside_setInside, other] using own

theorem own_setPid {data : Data n B} {q : Fin n} {m : Point n B} (lk : B) (pid : ℤ)
    (own : Own q m data) : Own q m (data.setPid lk pid) := by
  cases m <;> exact own

theorem Data.Sound.enter {data : Data n B} (sound : data.Sound) (free : data.locked lk = false)
    (p : Fin n) : (data.setInside p lk true).Sound := by
  have nobody : ∀ q, data.inside q lk = false := by
    intro q
    by_contra inside
    rw [Bool.not_eq_false] at inside
    have locked := (sound.locked lk).mpr ⟨q, inside⟩
    simp [free] at locked
  refine ⟨sound.distinct, fun other => ?_, fun q r other first second => ?_,
    fun q other settled first => ?_⟩
  · rw [locked_setInside]
    by_cases same : other = lk
    · subst other
      simp only [inside_setInside, if_true]
      exact ⟨fun _ => ⟨p, by simp⟩, fun _ => trivial⟩
    · simpa [inside_setInside, same] using sound.locked other
  · rw [inside_setInside] at first second
    by_cases same : other = lk
    · subst other
      simp only [and_true, nobody] at first second
      simp_all
    · simp only [same, and_false, if_false] at first second
      exact sound.alone q r other first second
  · have different : other ≠ lk := by
      rintro rfl
      simp [Data.setInside] at settled
    rw [inside_setInside] at first
    simp only [different, and_false, if_false] at first
    exact sound.pid q other (by simpa [Data.setInside, different] using settled) first

theorem Data.Sound.leave {data : Data n B} (sound : data.Sound) (mine : data.inside p lk = true) :
    (data.setInside p lk false).Sound := by
  have only : ∀ q, q ≠ p → data.inside q lk = false := by
    intro q other
    by_contra inside
    exact other (sound.alone q p lk (by simpa using inside) mine)
  refine ⟨sound.distinct, fun other => ?_, fun q r other first second => ?_,
    fun q other settled first => ?_⟩
  · rw [locked_setInside]
    by_cases same : other = lk
    · subst other
      simp only [inside_setInside, and_true, if_true]
      refine ⟨fun wrong => (Bool.false_ne_true wrong).elim, ?_⟩
      rintro ⟨q, inside⟩
      by_cases self : q = p
      · simp [self] at inside
      · simp [self, only q self] at inside
    · simpa [inside_setInside, same] using sound.locked other
  · rw [inside_setInside] at first second
    by_cases same : other = lk
    · subst other
      by_cases self : q = p
      · simp [self] at first
      · simp [self, only q self] at first
    · simp only [same, and_false, if_false] at first second
      exact sound.alone q r other first second
  · have different : other ≠ lk := by
      rintro rfl
      simp [Data.setInside] at settled
    rw [inside_setInside] at first
    simp only [different, and_false, if_false] at first
    exact sound.pid q other (by simpa [Data.setInside, different] using settled) first

theorem Data.Sound.setPid {data : Data n B} (sound : data.Sound) {pid : ℤ}
    (right : ∀ q, data.inside q lk = true → pid = data.procpid q) : (data.setPid lk pid).Sound := by
  refine ⟨sound.distinct, sound.locked, sound.alone, fun q other settled inside => ?_⟩
  by_cases same : other = lk
  · subst other
    simpa [Data.setPid] using right q inside
  · simpa [Data.setPid, same] using sound.pid q other (by simpa [Data.setPid, same] using settled) inside

theorem allowed_still {instr : Instr n B B (Point n B) (Data n B)} (inv : monitor.Inv s)
    (threads : policy.Allowed s p m instr) (data : instr.data s.data = s.data)
    (released : ∀ lk next, instr = .release (.named lk) next → s.data.between lk = false)
    (knows : (∀ lk next, instr = .acquire (.named lk) next → s.data.between lk = false) →
      monitor.Knows p s.data instr.next)
    (waking : ∀ chan, m = .releasePid chan ∨ m = .releaseWakeup chan →
      monitor.Wakes s.data chan instr.next)
    (spawns : ∀ q start data next, instr ≠ .spawn q start data next) :
    monitor.Allowed s p m instr where
  threads := threads
  sound := by
    rw [data]
    exact inv.sound
  locked other := .inr (by rw [data]; exact .refl s.data other)
  others _ _ _ _ own := by rwa [data]
  released := released
  knows rest := by
    rw [data]
    exact knows rest
  wakes chan due := by
    rw [data]
    exact due.imp_right (waking chan)
  spawns q start data next same := absurd same (spawns q start data next)

theorem allowed_change {data : Data n B} {next : Point n B} (lk : B) (mine : .named lk ∈ held p m)
    (threads : policy.Allowed s p m (.goto data next)) (sound : data.Sound)
    (keeps : ∀ other, other ≠ lk → monitor.Keeps s.data data other)
    (others : ∀ q m', q ≠ p → Own q m' s.data → Own q m' data) (own : Own p next data)
    (known : Knows next data)
    (wakes : ∀ chan, s.data.locked chan = true ∨ m = .releasePid chan ∨ m = .releaseWakeup chan →
      data.locked chan = true ∨ next = .releasePid chan ∨ next = .releaseWakeup chan) :
    monitor.Allowed s p m (.goto data next) where
  threads := threads
  sound := sound
  locked other := by
    by_cases same : other = lk
    · subst other
      exact .inl mine
    · exact .inr (keeps other same)
  others q m' other _ := others q m' other
  released _ _ same := by cases same
  knows _ := ⟨own, known⟩
  wakes := wakes
  spawns _ _ _ _ same := by cases same

omit [DecidableEq B] in
theorem holding_iff {data : Data n B} (sound : data.Sound) (settled : data.between lk = false) :
    (data.locked lk && data.pid lk == data.procpid p) = data.inside p lk := by
  rw [Bool.eq_iff_iff]
  simp only [Bool.and_eq_true, beq_iff_eq]
  constructor
  · rintro ⟨locked, same⟩
    obtain ⟨q, inside⟩ := (sound.locked lk).mp locked
    obtain rfl : q = p := sound.distinct ((sound.pid q lk settled inside).symm.trans same)
    exact inside
  · intro inside
    exact ⟨(sound.locked lk).mpr ⟨p, inside⟩, sound.pid p lk settled inside⟩

theorem allowed {call : Call B} {instr : Instr n B B (Point n B) (Data n B)} (inv : monitor.Inv s)
    (here : s.pc p = .main m) (ran : program.code p m s.state s.data call = some instr) :
    monitor.Allowed s p m instr := by
  have sound := inv.sound
  have knows := inv.knows p
  rw [here] at knows
  obtain ⟨own, known⟩ := knows
  cases m with
  | user =>
      cases call <;> obtain rfl := Option.some.inj ran
      all_goals
        refine allowed_still inv ?_ rfl (by simp) (fun _ => ⟨trivial, trivial⟩) (by simp) (by simp)
        simp [Policy.Allowed, program, held, policy]
  | acquireTest lk =>
      simp only [program, code] at ran
      split at ran <;> obtain rfl := Option.some.inj ran
      · rename_i locked
        refine allowed_still inv ?_ rfl (by simp)
          (fun _ => ⟨⟨locked, known⟩, trivial, fun _ rest => rest⟩) (by simp) (by simp)
        simp [Policy.Allowed, program, held, policy]
      · rename_i free
        refine allowed_still inv ?_ rfl (by simp) (fun _ => ⟨trivial, known, by simpa using free⟩)
          (by simp) (by simp)
        simp [Policy.Allowed, program, held, policy]
  | acquireLocked lk =>
      obtain rfl := Option.some.inj ran
      refine allowed_change lk (by simp [held]) ?_ (sound.enter known.2 p)
        (fun other different => setInside_keeps s.data p different true)
        (fun q m' other => own_setInside other lk true) ?_ trivial fun chan due => ?_
      · simp [Policy.Allowed, program, held, policy]
      · simp [Own, inside_setInside]
      · rw [locked_setInside]
        split
        · exact .inl rfl
        · simpa using due
  | acquirePid lk =>
      obtain rfl := Option.some.inj ran
      refine allowed_change lk (by simp [held]) ?_ (sound.setPid fun q inside => ?_)
        (fun other different => setPid_keeps s.data different _)
        (fun q m' _ => own_setPid lk _) trivial ?_ fun chan due => ?_
      · simp [Policy.Allowed, program, held, policy]
      · rw [sound.alone q p lk inside own]
      · simp [Knows, Data.setPid]
      · exact .inl (due.resolve_right (by simp))
  | releaseLocked lk =>
      obtain rfl := Option.some.inj ran
      refine allowed_change lk (by simp [held]) ?_ (sound.leave own)
        (fun other different => setInside_keeps s.data p different false)
        (fun q m' other => own_setInside other lk false) ?_ ?_ fun chan due => ?_
      · simp [Policy.Allowed, program, held, policy]
      · simp [Own, inside_setInside]
      · simp [Knows, locked_setInside]
      · rw [locked_setInside]
        by_cases same : chan = lk
        · exact .inr (.inl (by rw [same]))
        · rw [if_neg same]
          exact .inl (due.resolve_right (by simp))
  | releasePid lk =>
      obtain rfl := Option.some.inj ran
      refine allowed_change lk (by simp [held]) ?_ (sound.setPid fun q inside => ?_)
        (fun other different => setPid_keeps s.data different _)
        (fun q m' _ => own_setPid lk _) trivial ⟨?_, known⟩ fun chan due => ?_
      · simp [Policy.Allowed, program, held, policy]
      · have locked := (sound.locked lk).mpr ⟨q, inside⟩
        rw [show s.data.locked lk = false from known] at locked
        cases locked
      · simp [Data.setPid]
      · rcases due with locked | same | same
        · exact .inl locked
        · cases same
          exact .inr (.inr rfl)
        · cases same
  | holdingRead lk =>
      obtain rfl := Option.some.inj ran
      refine allowed_still inv ?_ rfl (by simp)
        (fun _ => ⟨(holding_iff sound known).symm, known⟩) (by simp) (by simp)
      simp [Policy.Allowed, program, held, policy]
  | holdingTest lk r =>
      obtain rfl := Option.some.inj ran
      cases r with
      | true =>
          refine allowed_still inv ?_ rfl (by simp) (fun _ => ⟨own, trivial⟩) (by simp) (by simp)
          simp [Policy.Allowed, program, held, policy]
      | false =>
          refine allowed_still inv ?_ rfl (by simp) (fun _ => ⟨own, trivial⟩) (by simp) (by simp)
          simp [Policy.Allowed, program, held, policy]
  | acquireLk lk | holdingLk lk =>
      obtain rfl := Option.some.inj ran
      refine allowed_still inv ?_ rfl (by simp) (fun rest => ⟨trivial, rest lk _ rfl⟩) (by simp)
        (by simp)
      simp [Policy.Allowed, program, held, policy]
  | releaseLk lk =>
      obtain rfl := Option.some.inj ran
      refine allowed_still inv ?_ rfl (by simp) (fun rest => ⟨own, rest lk _ rfl⟩) (by simp)
        (by simp)
      simp [Policy.Allowed, program, held, policy]
  | releaseWakeup lk =>
      obtain rfl := Option.some.inj ran
      refine allowed_still inv ?_ rfl (by simp) (fun _ => ⟨trivial, known.1⟩) ?_ (by simp)
      · simp [Policy.Allowed, program, held, policy]
      · rintro chan (same | same)
        · cases same
        · cases same
          exact .inl rfl
  | acquireRelease lk | releaseRelease lk =>
      obtain rfl := Option.some.inj ran
      refine allowed_still inv ?_ rfl ?_ (fun _ => ⟨trivial, trivial⟩) (by simp) (by simp)
      · simp [Policy.Allowed, program, held, policy]
      · rintro other next same
        cases same
        exact known
  | holdingRelease lk r =>
      obtain rfl := Option.some.inj ran
      refine allowed_still inv ?_ rfl ?_ (fun _ => ⟨own, trivial⟩) (by simp) (by simp)
      · simp [Policy.Allowed, program, held, policy]
      · rintro other next same
        cases same
        exact known
  | panic lk => cases ran
  | kill pid i =>
      simp only [program, code] at ran
      split at ran <;> obtain rfl := Option.some.inj ran
      all_goals
        refine allowed_still inv ?_ rfl (by simp) (fun _ => ⟨trivial, trivial⟩) (by simp) (by simp)
        simp [Policy.Allowed, program, held, policy]
  | killTest pid q =>
      have fits := inv.threads.fits p
      simp only [here, Pc.Fits, policy] at fits
      simp only [program, code] at ran
      split at ran
      · split at ran <;> obtain rfl := Option.some.inj ran
        · rename_i sleeping
          refine allowed_still inv ⟨by simp [program, held], by simp [program, held],
            by simp [policy], .inr ⟨?_, rfl, .inl ⟨sleeping, rfl⟩⟩⟩ rfl (by simp)
            (fun _ => ⟨trivial, trivial⟩) (by simp) (by simp)
          rintro rfl
          simp [sleeping] at fits
        · refine allowed_still inv ?_ rfl (by simp) (fun _ => ⟨trivial, trivial⟩) (by simp) (by simp)
          simp [Policy.Allowed, program, held, policy]
      · obtain rfl := Option.some.inj ran
        refine allowed_still inv ?_ rfl (by simp) (fun _ => ⟨trivial, trivial⟩) (by simp) (by simp)
        simp [Policy.Allowed, program, held, policy]
  | killNext pid q | killDone q =>
      obtain rfl := Option.some.inj ran
      refine allowed_still inv ?_ rfl (by simp) (fun _ => ⟨trivial, trivial⟩) (by simp) (by simp)
      simp [Policy.Allowed, program, held, policy]

theorem start_inv {procpid : Fin n → ℤ} (distinct : Function.Injective procpid) :
    monitor.Inv (start (B := B) procpid) :=
  .unstarted (fun _ => rfl) (fun _ => rfl) (fun _ => rfl) (fun _ => rfl) (fun _ => rfl)
    ⟨distinct, by simp [start], by simp [start], by simp [start]⟩ (fun _ => rfl) fun _ => trivial

theorem inv_of_reachable {s : SleepState n B} (reachable : system.Reachable s) : monitor.Inv s := by
  refine System.Reachable.invariant ?_ ?_ reachable
  · rintro _ ⟨procpid, distinct, rfl⟩
    exact start_inv distinct
  · rintro before ⟨p, event⟩ after inv taken
    exact inv.step (fun m call instr here _ ran => allowed inv here ran) taken

/-- One process is inside of a lock at a time, `holdingsleep` tells whether the caller is, only a
process that is not panics at the release, and while the spinlock is free nobody sleeps for a lock
that is free. -/
theorem sleeplock_safe {s : SleepState n B} (reachable : system.Reachable s) (lk : B) :
    (∀ p q, s.data.inside p lk = true → s.data.inside q lk = true → p = q) ∧
    (∀ p r, s.pc p = .main (.holdingTest lk r) → r = s.data.inside p lk) ∧
    (∀ p, s.pc p = .main (.panic lk) → s.data.inside p lk = false) ∧
    (∀ p, s.owner (.named lk) = none → s.state p = .SLEEPING → s.chan p = some lk →
      ∃ q, s.data.inside q lk = true) := by
  have inv := inv_of_reachable reachable
  refine ⟨fun p q => inv.sound.alone p q lk, fun p r here => ?_, fun p here => ?_,
    fun p free sleeping on => ?_⟩
  · have knows := inv.knows p
    rw [here] at knows
    exact knows.1.symm
  · have knows := inv.knows p
    rw [here] at knows
    exact knows.1
  · refine (inv.sound.locked lk).mp ((inv.sleeping sleeping on).resolve_right ?_)
    rintro ⟨q, wakes⟩
    exact inv.threads.owned.not_held free q (inv.wakes_holds wakes)

theorem sound (before : SleepState n B) (label : Fin n × Event (Call B)) (after : SleepState n B)
    (taken : program.step before label = some after) : system.step before label after := taken

def runs (p : Fin 2) (steps : ℕ) : List (Fin 2 × Event (Call ℕ)) :=
  List.replicate steps (p, .run (.acquiresleep 5))

theorem sleeplock_safe_waiting : ∃ s : SleepState 2 ℕ, s.data.inside 0 5 = true ∧
    s.state 1 = .SLEEPING ∧ ∀ q, s.data.inside 0 5 = true → s.data.inside q 5 = true → 0 = q := by
  obtain ⟨s, run, ends⟩ := System.Run.existsOfExecute (sound (n := 2) (B := ℕ))
    (show (System.execute _ (start fun p => p.val + 1)
      ((0, .dispatch) :: runs 0 7 ++ (1, .dispatch) :: runs 1 9)).map
        (fun s => (s.data.inside 0 5, s.state 1)) = some (true, .SLEEPING) by decide)
  obtain ⟨inside, sleeping⟩ := Prod.mk.inj ends
  have distinct : Function.Injective fun p : Fin 2 => (p.val + 1 : ℤ) :=
    fun p q same => Fin.ext (by simp only at same; omega)
  have reachable := run.reachable (.start ⟨_, distinct, rfl⟩)
  exact ⟨s, inside, sleeping, fun q => (sleeplock_safe reachable 5).1 0 q⟩

end OsLab.Kernel.Sleeplock
