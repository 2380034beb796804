import OsLab.Kernel.PipeSafety

/-!
The end of a pipe. `fileclose` closes an end once, when no file descriptor for it is left; the
second of the two closes frees the page of the pipe, and nobody is in a call on it then.
-/

namespace OsLab.Kernel.Pipe

open OsLab.Library OsLab.Kernel.Threads OsLab.Kernel.Signal

variable {p : ℕ}

/-- The end of the pipe that the call under way has been made for. -/
def Caller.writable : Caller → Bool
  | .pipewrite _ _ => true
  | .piperead _ => false

namespace Point

def uses : Point p → Option Bool
  | .writeAcquire _ | .writeLoop _ _ | .writeOpen _ _ | .writeFull _ _ | .writeFullWakeup _ _
  | .writeSleep _ _ | .writeCopy _ _ | .writeWakeup _ | .writeRelease _ => some true
  | .readAcquire _ | .readLoop _ | .readSleep _ | .readCopy _ _ | .readTake _ _ | .readWakeup _
  | .readRelease _ => some false
  | .killedAcquire caller | .killedRead caller | .killedRelease caller _ | .killedTest caller _ =>
      some caller.writable
  | .closeAcquire writable | .closeSet writable | .closeWakeup writable | .closeTest writable
  | .closeRelease writable | .closeLast writable | .kfree writable => some writable
  | _ => none

def Past : Point p → Prop
  | .closeWakeup _ | .closeTest _ | .closeRelease _ | .closeLast _ | .kfree _ => True
  | _ => False

def Closing : Point p → Prop
  | .closeAcquire _ | .closeSet _ => True
  | m => m.Past

def Last : Point p → Prop
  | .closeLast _ | .kfree _ => True
  | _ => False

theorem Past.closing {m : Point p} (past : m.Past) : m.Closing := by
  cases m <;> first | exact trivial | exact past

theorem Last.past {m : Point p} (last : m.Last) : m.Past := by
  cases m <;> first | exact trivial | exact last

theorem Past.uses {m : Point p} (past : m.Past) : ∃ w, m.uses = some w := by
  cases m <;> first | exact ⟨_, rfl⟩ | exact past.elim

end Point

/-- How `file.c` uses the pipe: a call is made through an open file, and an end is closed with the
last reference to its file, which no call has then. -/
def throughFile (s : PipeState p) : Input → Bool
  | .pipewrite _ => !s.data.closed true
  | .piperead _ => !s.data.closed false
  | .pipeclose writable => !s.data.closed writable &&
      decide (∀ q, (point (s.pc q)).bind Point.uses ≠ some writable)
  | _ => true

def Disciplined (s : PipeState p) : Fin p × Event Input → Prop
  | (self, .run input) => point (s.pc self) = some .user → throughFile s input = true
  | _ => True

def disciplined : System (PipeState p) (Fin p × Event Input) := system.restrict Disciplined

structure Files (at_point : Fin p → Option (Point p)) (data : Data p) : Prop where
  closing : ∀ q m w, at_point q = some m → m.uses = some w → data.closed w = true → m.Closing
  alone : ∀ q m w, at_point q = some m → m.Closing → m.uses = some w → data.closed w = true ∧
    ∀ r m', r ≠ q → at_point r = some m' → m'.uses ≠ some w
  marked : ∀ w, data.opened w = false → data.closed w = true ∧
    ∀ q m, at_point q = some m → m.uses = some w → m.Past
  last : ∀ q m, at_point q = some m → m.Last → data.opened true = false ∧
    data.opened false = false ∧ data.freed = false ∧
      ∀ r m', r ≠ q → at_point r = some m' → m'.uses = none
  freed : data.freed = true → data.closed true = true ∧ data.closed false = true ∧
    ∀ q m, at_point q = some m → m.uses = none

namespace Files

variable {f g : Fin p → Option (Point p)} {data other : Data p} {self : Fin p} {m next : Point p}

theorem moved_cases (moved : g = Function.update f self (some next)) {q : Fin p} {m' : Point p}
    (there : g q = some m') : q = self ∧ m' = next ∨ q ≠ self ∧ f q = some m' := by
  rw [moved] at there
  by_cases same : q = self
  · rw [same, Function.update_self] at there
    exact .inl ⟨same, (Option.some.inj there).symm⟩
  · rw [Function.update_of_ne same] at there
    exact .inr ⟨same, there⟩

theorem inside (files : Files f data) (here : f self = some m) (moved : g = Function.update f self (some next))
    (closed : other.closed = data.closed) (opened : other.opened = data.opened)
    (freed : other.freed = data.freed) (uses : next.uses = m.uses)
    (closing : next.Closing ↔ m.Closing) (past : m.Past → next.Past) (last : next.Last → m.Last) :
    Files g other := by
  have before : ∀ q m', g q = some m' → ∃ m₀, f q = some m₀ ∧ m'.uses = m₀.uses ∧
      (m'.Closing ↔ m₀.Closing) ∧ (m₀.Past → m'.Past) ∧ (m'.Last → m₀.Last) := by
    intro q m' there
    rcases moved_cases moved there with ⟨rfl, rfl⟩ | ⟨-, before⟩
    · exact ⟨m, here, uses, closing, past, last⟩
    · exact ⟨m', before, rfl, .rfl, id, id⟩
  refine ⟨fun q m' w there used was => ?_, fun q m' w there shut used => ?_, fun w shut => ?_,
    fun q m' there final => ?_, fun gone => ?_⟩
  · obtain ⟨m₀, at_first, uses', closing', -, -⟩ := before q m' there
    exact closing'.mpr (files.closing q m₀ w at_first (uses' ▸ used) (closed ▸ was))
  · obtain ⟨m₀, at_first, uses', closing', -, -⟩ := before q m' there
    obtain ⟨was, alone⟩ := files.alone q m₀ w at_first (closing'.mp shut) (uses' ▸ used)
    refine ⟨closed ▸ was, fun r m'' different elsewhere => ?_⟩
    obtain ⟨m₁, at_second, uses'', -⟩ := before r m'' elsewhere
    exact uses'' ▸ alone r m₁ different at_second
  · obtain ⟨was, through⟩ := files.marked w (opened ▸ shut)
    refine ⟨closed ▸ was, fun q m' there used => ?_⟩
    obtain ⟨m₀, at_first, uses', -, past', -⟩ := before q m' there
    exact past' (through q m₀ at_first (uses' ▸ used))
  · obtain ⟨m₀, at_first, -, -, -, last'⟩ := before q m' there
    obtain ⟨one, two, unfreed, nobody⟩ := files.last q m₀ at_first (last' final)
    refine ⟨opened ▸ one, opened ▸ two, freed.trans unfreed, fun r m'' different elsewhere => ?_⟩
    obtain ⟨m₁, at_second, uses'', -⟩ := before r m'' elsewhere
    exact uses''.trans (nobody r m₁ different at_second)
  · obtain ⟨one, two, nobody⟩ := files.freed (freed ▸ gone)
    refine ⟨closed ▸ one, closed ▸ two, fun q m' there => ?_⟩
    obtain ⟨m₀, at_first, uses', -⟩ := before q m' there
    exact uses'.trans (nobody q m₀ at_first)

theorem busy (files : Files f data) (here : f self = some m) {w : Bool} (uses : m.uses = some w) :
    data.freed = false ∧ ∀ q m', q ≠ self → f q = some m' → ¬ m'.Last := by
  refine ⟨?_, fun q m' other there last => ?_⟩
  · by_contra gone
    rw [Bool.not_eq_false] at gone
    rw [(files.freed gone).2.2 self m here] at uses
    cases uses
  · rw [(files.last q m' there last).2.2.2 self m other.symm here] at uses
    cases uses

theorem before_last (files : Files f data) {w : Bool} (still : data.closed w = false) :
    data.freed = false ∧ ∀ q m', f q = some m' → ¬ m'.Last := by
  have marked := fun w shut => (files.marked w shut).1
  refine ⟨?_, fun q m' there last => ?_⟩
  · by_contra gone
    rw [Bool.not_eq_false] at gone
    obtain ⟨one, two, -⟩ := files.freed gone
    cases w <;> simp_all
  · obtain ⟨one, two, -⟩ := files.last q m' there last
    have first := marked true one
    have second := marked false two
    cases w <;> simp_all

theorem leave (files : Files f data) (moved : g = Function.update f self (some .user)) :
    Files g data := by
  have before : ∀ {q m'} {w : Bool}, g q = some m' → m'.uses = some w → f q = some m' := by
    intro q m' w there used
    rcases moved_cases moved there with ⟨-, rfl⟩ | ⟨-, before⟩
    · cases used
    · exact before
  have closing : ∀ {q m'}, g q = some m' → m'.Closing → f q = some m' := by
    intro q m' there shut
    rcases moved_cases moved there with ⟨-, rfl⟩ | ⟨-, before⟩
    · exact shut.elim
    · exact before
  refine ⟨fun q m' w there used => files.closing q m' w (before there used) used,
    fun q m' w there shut used => ?_, fun w shut => ?_, fun q m' there final => ?_, fun gone => ?_⟩
  · obtain ⟨was, alone⟩ := files.alone q m' w (closing there shut) shut used
    exact ⟨was, fun r m'' other elsewhere both => alone r m'' other (before elsewhere both) both⟩
  · obtain ⟨was, through⟩ := files.marked w shut
    exact ⟨was, fun q m' there used => through q m' (before there used) used⟩
  · obtain ⟨one, two, unfreed, nobody⟩ := files.last q m' (closing there final.past.closing) final
    refine ⟨one, two, unfreed, fun r m'' other elsewhere => ?_⟩
    rcases moved_cases moved elsewhere with ⟨-, rfl⟩ | ⟨-, earlier⟩
    · rfl
    · exact nobody r m'' other earlier
  · obtain ⟨one, two, nobody⟩ := files.freed gone
    refine ⟨one, two, fun q m' there => ?_⟩
    rcases moved_cases moved there with ⟨-, rfl⟩ | ⟨-, earlier⟩
    · rfl
    · exact nobody q m' earlier

theorem enter (files : Files f data) (moved : g = Function.update f self (some next)) {w : Bool}
    (uses : next.uses = some w) (opened : data.closed w = false) (fresh : ¬ next.Closing) :
    Files g data := by
  obtain ⟨unfreed, none_last⟩ := files.before_last opened
  have apart : ∀ {v}, next.uses = some v → data.closed v = true → False := by
    intro v same shut
    obtain rfl : w = v := Option.some.inj (uses.symm.trans same)
    simp [opened] at shut
  refine ⟨fun q m' v there used was => ?_, fun q m' v there shut used => ?_, fun v shut => ?_,
    fun q m' there final => ?_, fun gone => by simp [unfreed] at gone⟩
  · rcases moved_cases moved there with ⟨-, rfl⟩ | ⟨-, before⟩
    · exact (apart used was).elim
    · exact files.closing q m' v before used was
  · rcases moved_cases moved there with ⟨-, rfl⟩ | ⟨-, before⟩
    · exact absurd shut fresh
    · obtain ⟨was, alone⟩ := files.alone q m' v before shut used
      refine ⟨was, fun r m'' other elsewhere both => ?_⟩
      rcases moved_cases moved elsewhere with ⟨-, rfl⟩ | ⟨-, earlier⟩
      · exact apart both was
      · exact alone r m'' other earlier both
  · obtain ⟨was, through⟩ := files.marked v shut
    refine ⟨was, fun q m' there used => ?_⟩
    rcases moved_cases moved there with ⟨-, rfl⟩ | ⟨-, before⟩
    · exact (apart used was).elim
    · exact through q m' before used
  · rcases moved_cases moved there with ⟨-, rfl⟩ | ⟨-, before⟩
    · exact absurd final.past.closing fresh
    · exact absurd final (none_last q m' before)

theorem enterClose (files : Files f data) {w : Bool}
    (moved : g = Function.update f self (some (.closeAcquire w))) (opened : data.closed w = false)
    (unused : ∀ q m', f q = some m' → m'.uses ≠ some w) :
    Files g { data with closed := Function.update data.closed w true } := by
  obtain ⟨unfreed, none_last⟩ := files.before_last opened
  have closed : ∀ {v}, data.closed v = true → Function.update data.closed w true v = true := by
    intro v was
    by_cases same : v = w
    · rw [same, Function.update_self]
    · rwa [Function.update_of_ne same]
  have other_end : ∀ {v}, data.closed v = true → (Point.closeAcquire (p := p) w).uses ≠ some v := by
    intro v was same
    obtain rfl : w = v := Option.some.inj same
    simp [opened] at was
  refine ⟨fun q m' v there used was => ?_, fun q m' v there shut used => ?_, fun v shut => ?_,
    fun q m' there final => ?_, fun gone => by simp [unfreed] at gone⟩
  · rcases moved_cases moved there with ⟨-, rfl⟩ | ⟨-, before⟩
    · trivial
    · have different : v ≠ w := by
        rintro rfl
        exact unused q m' before used
      exact files.closing q m' v before used (by simpa [different] using was)
  · rcases moved_cases moved there with ⟨rfl, rfl⟩ | ⟨-, before⟩
    · obtain rfl : w = v := Option.some.inj used
      refine ⟨Function.update_self .., fun r m'' other elsewhere => ?_⟩
      exact unused r m'' ((moved_cases moved elsewhere).resolve_left fun same => other same.1).2
    · obtain ⟨was, alone⟩ := files.alone q m' v before shut used
      refine ⟨closed was, fun r m'' other elsewhere => ?_⟩
      rcases moved_cases moved elsewhere with ⟨-, rfl⟩ | ⟨-, earlier⟩
      · exact other_end was
      · exact alone r m'' other earlier
  · obtain ⟨was, through⟩ := files.marked v (by cases v <;> exact shut)
    refine ⟨closed was, fun q m' there used => ?_⟩
    rcases moved_cases moved there with ⟨-, rfl⟩ | ⟨-, before⟩
    · exact absurd used (other_end was)
    · exact through q m' before used
  · rcases moved_cases moved there with ⟨-, rfl⟩ | ⟨-, before⟩
    · exact final.elim
    · exact absurd final (none_last q m' before)

theorem mark (files : Files f data) {w : Bool} (here : f self = some (.closeSet w))
    (moved : g = Function.update f self (some (.closeWakeup w))) :
    Files g (data.close w) := by
  obtain ⟨unfreed, none_last⟩ := files.busy here rfl
  obtain ⟨was, alone⟩ := files.alone self _ w here trivial rfl
  have closed : (data.close w).closed = data.closed := by cases w <;> rfl
  have freed : (data.close w).freed = data.freed := by cases w <;> rfl
  have opened : ∀ v, v ≠ w → (data.close w).opened v = data.opened v := by
    intro v other
    cases v <;> cases w <;> simp_all [Data.opened, Data.close, Data.announce]
  have before : ∀ {q m'}, g q = some m' → ∃ m₀, f q = some m₀ ∧ m'.uses = m₀.uses ∧
      (m'.Closing ↔ m₀.Closing) ∧ (m₀.Past → m'.Past) ∧ (q ≠ self → m₀ = m') := by
    intro q m' there
    rcases moved_cases moved there with ⟨rfl, rfl⟩ | ⟨other, before⟩
    · exact ⟨_, here, rfl, .rfl, fun _ => trivial, fun apart => absurd rfl apart⟩
    · exact ⟨m', before, rfl, .rfl, id, fun _ => rfl⟩
  refine ⟨fun q m' v there used was' => ?_, fun q m' v there shut used => ?_, fun v shut => ?_,
    fun q m' there final => ?_, fun gone => by simp [freed, unfreed] at gone⟩
  · obtain ⟨m₀, at_first, uses, closing, -⟩ := before there
    exact closing.mpr (files.closing q m₀ v at_first (uses ▸ used) (closed ▸ was'))
  · obtain ⟨m₀, at_first, uses, closing, -⟩ := before there
    obtain ⟨was', alone'⟩ := files.alone q m₀ v at_first (closing.mp shut) (uses ▸ used)
    refine ⟨closed ▸ was', fun r m'' other elsewhere => ?_⟩
    obtain ⟨m₁, at_second, uses', -⟩ := before elsewhere
    exact uses' ▸ alone' r m₁ other at_second
  · by_cases same : v = w
    · subst v
      refine ⟨closed ▸ was, fun q m' there used => ?_⟩
      rcases moved_cases moved there with ⟨-, rfl⟩ | ⟨other, earlier⟩
      · trivial
      · exact absurd used (alone q m' other earlier)
    · obtain ⟨was', through⟩ := files.marked v (opened v same ▸ shut)
      refine ⟨closed ▸ was', fun q m' there used => ?_⟩
      obtain ⟨m₀, at_first, uses, -, past, -⟩ := before there
      exact past (through q m₀ at_first (uses ▸ used))
  · rcases moved_cases moved there with ⟨-, rfl⟩ | ⟨other, earlier⟩
    · exact final.elim
    · exact absurd final (none_last q m' other earlier)

theorem settle (files : Files f data) {w : Bool} (here : f self = some (.closeTest w))
    (moved : g = Function.update f self (some (.closeLast w)))
    (both : data.opened true = false ∧ data.opened false = false)
    (nobody : ∀ r m', r ≠ self → f r = some m' → m'.uses = none) : Files g data := by
  obtain ⟨unfreed, none_last⟩ := files.busy here rfl
  obtain ⟨was, alone⟩ := files.alone self _ w here trivial rfl
  have rest : ∀ {q m'}, g q = some m' → q ≠ self → f q = some m' := fun there other =>
    ((moved_cases moved there).resolve_left fun same => other same.1).2
  refine ⟨fun q m' v there used was' => ?_, fun q m' v there shut used => ?_, fun v shut => ?_,
    fun q m' there final => ?_, fun gone => by simp [unfreed] at gone⟩
  · rcases moved_cases moved there with ⟨-, rfl⟩ | ⟨-, before⟩
    · trivial
    · exact files.closing q m' v before used was'
  · rcases moved_cases moved there with ⟨rfl, rfl⟩ | ⟨other, before⟩
    · obtain rfl : w = v := Option.some.inj used
      exact ⟨was, fun r m'' other elsewhere => alone r m'' other (rest elsewhere other)⟩
    · rw [nobody q m' other before] at used
      cases used
  · obtain ⟨was', through⟩ := files.marked v shut
    refine ⟨was', fun q m' there used => ?_⟩
    rcases moved_cases moved there with ⟨-, rfl⟩ | ⟨-, before⟩
    · trivial
    · exact through q m' before used
  · rcases moved_cases moved there with ⟨rfl, rfl⟩ | ⟨other, before⟩
    · exact ⟨both.1, both.2, unfreed, fun r m'' other elsewhere =>
        nobody r m'' other (rest elsewhere other)⟩
    · exact absurd final (none_last q m' other before)

theorem free (files : Files f data) {w : Bool} (here : f self = some (.kfree w))
    (moved : g = Function.update f self (some .user)) : Files g { data with freed := true } := by
  obtain ⟨one, two, -, nobody⟩ := files.last self _ here trivial
  have none : ∀ q m', g q = some m' → m'.uses = none := by
    intro q m' there
    rcases moved_cases moved there with ⟨-, rfl⟩ | ⟨other, before⟩
    · rfl
    · exact nobody q m' other before
  have stuck : ∀ {P : Prop} {q m'} {v : Bool}, g q = some m' → m'.uses = some v → P := by
    intro P q m' v there used
    rw [none q m' there] at used
    cases used
  refine ⟨fun q m' v there used => stuck there used, fun q m' v there _ used => stuck there used,
    fun v shut => ?_, fun q m' there final => ?_, fun _ => ⟨(files.marked true one).1,
      (files.marked false two).1, none⟩⟩
  · refine ⟨(files.marked v (by cases v <;> exact shut)).1, fun q m' there used => stuck there used⟩
  · obtain ⟨v, used⟩ := final.past.uses
    exact stuck there used

end Files

/-! ### Every step -/

variable {s t : PipeState p} {self : Fin p}

theorem flow_point {before next : Pc p Unit Chan (Point p)} (flow : program.Flow self before next) :
    point next = point before := by
  cases flow with
  | waking first second =>
      cases before <;> cases next <;> simp_all [Pc.Waking, point]
  | _ => rfl

theorem closing_holds (inv : monitor.Inv s) {m : Point p} (there : point (s.pc self) = some m)
    (past : m.Past) (still : ∀ w, m ≠ .kfree w) :
    program.holds self (s.pc self) (.named ()) := by
  have lock : .named () ∈ program.held self m := by
    cases m <;> first
      | exact past.elim
      | exact absurd rfl (still _)
      | simp [program, held]
  have knows := inv.knows self
  have returns := inv.threads.returns self
  have never : ¬ ∀ later : Data p, Knows m later := by
    intro all
    have later := all { s.data with readopen := true, writeopen := true }
    cases m <;> first
      | exact past.elim
      | exact absurd rfl (still _)
      | (rename_i w; cases w <;> simp [Knows, Data.opened] at later)
  cases here : s.pc self with
  | main m' =>
      rw [here] at there
      obtain rfl := Option.some.inj there
      exact lock
  | sleep stage chan lk ret =>
      rw [here] at there knows
      obtain rfl := Option.some.inj there
      cases stage with
      | acquire | release => exact absurd (fun later => knows.2.2 later trivial) never
      | _ => exact absurd (fun later => knows.2 later trivial) never
  | wakeup i chan ret | wakeupTest q chan ret | wakeupRelease q chan ret =>
      rw [here] at there
      obtain rfl := Option.some.inj there
      simp [Program.holds, lock]
  | yield stage ret =>
      rw [here] at there returns
      obtain rfl := Option.some.inj there
      rw [returns.1] at lock
      cases lock
  | dead => simp [here, point] at there

theorem files_perform {m : Point p} {input : Input} {instr : Instr p Unit Chan (Point p) (Data p)}
    (inv : monitor.Inv s) (files : Files (fun q => point (s.pc q)) s.data)
    (here : s.pc self = .main m) (disciplined : Disciplined s (self, .run input))
    (ran : program.code self m s.state s.data input = some instr)
    (performed : perform s self instr = some t) : Files (fun q => point (t.pc q)) t.data := by
  obtain ⟨data, -, pc⟩ := perform_effect performed
  have at_here : point (s.pc self) = some m := by
    rw [here]
    rfl
  have moved : ∀ next, instr.others s.pc = s.pc → point instr.next = some next →
      (fun q => point (t.pc q)) = Function.update (fun q => point (s.pc q)) self (some next) := by
    intro next alone into
    funext q
    rw [pc, alone]
    by_cases same : q = self
    · rw [same, Function.update_self, Function.update_self, into]
    · rw [Function.update_of_ne same, Function.update_of_ne same]
  rw [data]
  cases m with
  | closeSet w =>
      obtain rfl := Option.some.inj ran
      exact files.mark at_here (moved _ rfl rfl)
  | closeTest w =>
      simp only [program, code] at ran
      split at ran <;> obtain rfl := Option.some.inj ran
      · rename_i both
        refine files.settle at_here (moved _ rfl rfl) ⟨both.2, both.1⟩ fun r m' other there => ?_
        by_contra used
        obtain ⟨v, used⟩ := Option.ne_none_iff_exists'.mp used
        have past := (files.marked v (by cases v; exacts [both.1, both.2])).2 r m' there used
        have mine : program.holds self (s.pc self) (.named ()) := by
          simp [here, Program.holds, program, held]
        by_cases freeing : ∃ w', m' = .kfree w'
        · obtain ⟨w', rfl⟩ := freeing
          have none := (files.last r _ there trivial).2.2.2 self _ other.symm at_here
          cases none
        · exact other (inv.threads.owned.exclusive
            (closing_holds inv there past fun w' same => freeing ⟨w', same⟩) mine)
      · exact files.inside at_here (moved _ rfl rfl) rfl rfl rfl rfl .rfl id id
  | kfree w =>
      obtain rfl := Option.some.inj ran
      exact files.free at_here (moved _ rfl rfl)
  | user =>
      cases input with
      | pipewrite n =>
          obtain rfl := Option.some.inj ran
          exact files.enter (moved _ rfl rfl) rfl (by simpa [throughFile] using disciplined at_here) id
      | piperead n =>
          obtain rfl := Option.some.inj ran
          exact files.enter (moved _ rfl rfl) rfl (by simpa [throughFile] using disciplined at_here) id
      | pipeclose w =>
          obtain rfl := Option.some.inj ran
          obtain ⟨opened, unused⟩ : s.data.closed w = false ∧
              ∀ q, (point (s.pc q)).bind Point.uses ≠ some w := by
            simpa [throughFile] using disciplined at_here
          refine files.enterClose (moved _ rfl rfl) opened fun q m' there used => unused q ?_
          rw [there]
          exact used
      | kkill pid signum =>
          simp only [program, code] at ran
          split at ran <;> obtain rfl := Option.some.inj ran
          all_goals exact files.inside at_here (moved _ rfl rfl) rfl rfl rfl rfl .rfl id id
      | copyin ch => cases ran
      | copyout done => cases ran
  | writeRelease r | readRelease r | closeRelease w =>
      obtain rfl := Option.some.inj ran
      exact files.leave (moved _ rfl rfl)
  | killTest pid signum q =>
      have kept : (s.data.kill q signum).closed = s.data.closed ∧
          (s.data.kill q signum).opened = s.data.opened ∧
            (s.data.kill q signum).freed = s.data.freed := by
        rw [Data.kill]
        split <;> exact ⟨rfl, rfl, rfl⟩
      obtain ⟨closed, opened, freed⟩ := kept
      simp only [program, code] at ran
      split at ran
      · split at ran <;> obtain rfl := Option.some.inj ran
        all_goals exact files.inside at_here (moved _ rfl rfl) closed opened freed rfl .rfl id id
      · obtain rfl := Option.some.inj ran
        exact files.inside at_here (moved _ rfl rfl) rfl rfl rfl rfl .rfl id id
  | killedTest caller k =>
      cases caller <;> simp only [program, code] at ran <;> split at ran <;>
        obtain rfl := Option.some.inj ran
      all_goals exact files.inside at_here (moved _ rfl rfl) rfl rfl rfl rfl .rfl id id
  | writeLoop n i | writeOpen n i | writeFull n i | readLoop n | readCopy n i | kill pid signum i =>
      simp only [program, code] at ran
      split at ran <;> obtain rfl := Option.some.inj ran
      all_goals exact files.inside at_here (moved _ rfl rfl) rfl rfl rfl rfl .rfl id id
  | writeCopy n i | readTake n i =>
      simp only [program, code] at ran
      split at ran
      · obtain rfl := Option.some.inj ran
        exact files.inside at_here (moved _ rfl rfl) rfl rfl rfl rfl .rfl id id
      · obtain rfl := Option.some.inj ran
        exact files.inside at_here (moved _ rfl rfl) rfl rfl rfl rfl .rfl id id
      · cases ran
  | closeLast w =>
      obtain rfl := Option.some.inj ran
      exact files.inside at_here (moved _ rfl rfl) rfl rfl rfl rfl .rfl id id
  | _ =>
      obtain rfl := Option.some.inj ran
      exact files.inside at_here (moved _ rfl rfl) rfl rfl rfl rfl .rfl id id

theorem files_step {event : Event Input} (inv : monitor.Inv s)
    (files : Files (fun q => point (s.pc q)) s.data) (disciplined : Disciplined s (self, event))
    (taken : program.step s (self, event) = some t) :
    Files (fun q => point (t.pc q)) t.data := by
  rcases program.step_cases taken with ⟨m, input, instr, here, rfl, ran, performed⟩ | internal
  · exact files_perform inv files here disciplined ran performed
  · obtain ⟨next, moved, flow⟩ := internal.pc
    have same : (fun q => point (t.pc q)) = fun q => point (s.pc q) := by
      funext q
      rw [moved]
      by_cases here : q = self
      · rw [here, Function.update_self, flow_point flow]
      · rw [Function.update_of_ne here]
    rw [same, internal.data]
    exact files

theorem start_files (pid : Fin p → ℤ) (slots : ℕ → UInt8) :
    Files (fun q => point ((start pid slots).pc q)) (start pid slots).data := by
  have user : ∀ q m, point ((start pid slots).pc q) = some m → m = .user :=
    fun q m there => (Option.some.inj there).symm
  refine ⟨fun q m w there used => ?_, fun q m w there shut => ?_, fun w shut => ?_,
    fun q m there final => ?_, fun gone => by cases gone⟩
  · obtain rfl := user q m there
    cases used
  · obtain rfl := user q m there
    exact shut.elim
  · cases w <;> cases shut
  · obtain rfl := user q m there
    exact final.elim

theorem files_of_reachable (reachable : disciplined.Reachable s) :
    Files (fun q => point (s.pc q)) s.data := by
  induction reachable with
  | start initial =>
      obtain ⟨pid, slots, rfl⟩ := initial
      exact start_files pid slots
  | @step before label after earlier taken ih =>
      obtain ⟨self, event⟩ := label
      exact files_step (inv_of_reachable earlier.unrestrict) ih taken.1 taken.2

/-- The page of a pipe is freed once, at a moment when nobody else is in a call on the pipe, and
no call on it begins later. -/
theorem pipe_freed (reachable : disciplined.Reachable s) :
    (∀ q w, point (s.pc q) = some (.kfree w) → s.data.freed = false ∧
      ∀ r m, r ≠ q → point (s.pc r) = some m → m.uses = none) ∧
    (s.data.freed = true → ∀ q m, point (s.pc q) = some m → m.uses = none) := by
  have files := files_of_reachable reachable
  refine ⟨fun q w there => ?_, fun gone => (files.freed gone).2.2⟩
  obtain ⟨-, -, unfreed, nobody⟩ := files.last q _ there trivial
  exact ⟨unfreed, nobody⟩

instance (s : PipeState p) (label : Fin p × Event Input) : Decidable (Disciplined s label) :=
  match label with
  | (self, .run input) =>
      inferInstanceAs (Decidable (point (s.pc self) = some .user → throughFile s input = true))
  | (_, .dispatch) => .isTrue trivial
  | (_, .preempt) => .isTrue trivial

theorem sound_disciplined (before : PipeState p) (label : Fin p × Event Input) (after : PipeState p)
    (taken : System.guard Disciplined program.step before label = some after) :
    disciplined.step before label after :=
  @System.guard_sound _ _ system _ _ _ (fun _ _ _ taken => taken) before label after taken

def runs (q : Fin p) (k : ℕ) : List (Fin p × Event Input) :=
  List.replicate k (q, .run (.piperead 0))

/-- The writer closes its end and returns, and the reader, which closes the other one, is about to
free the page. -/
def closed (writer reader : Fin p) : List (Fin p × Event Input) :=
  (writer, .dispatch) :: runs writer 1 ++ (writer, .run (.pipeclose true)) :: runs writer 10 ++
    (reader, .dispatch) :: runs reader 1 ++ (reader, .run (.pipeclose false)) :: runs reader 10

theorem pipe_freed_closed : ∃ s t : PipeState 2, disciplined.Reachable s ∧
    disciplined.Run s (runs 1 1) t ∧
    (s.data.freed = false ∧ ∀ m, point (s.pc 0) = some m → m.uses = none) ∧
    t.data.freed = true ∧ ∀ q m, point (t.pc q) = some m → m.uses = none := by
  obtain ⟨s, closing, seen⟩ := System.Run.existsOfExecute (@sound_disciplined 2)
    (show (System.execute _ (start (fun q => q.val + 1) fun _ => 0) (closed 0 1)).map (fun s =>
      (decide (point (s.pc 1) = some (.kfree false)),
        (System.execute (System.guard Disciplined (program (p := 2)).step) s (runs 1 1)).map
          fun t => t.data.freed)) = some (true, some true) by decide)
  obtain ⟨last, rest⟩ := Prod.mk.inj seen
  obtain ⟨t, freeing, freed⟩ := System.Run.existsOfExecute (@sound_disciplined 2) rest
  have reachable := closing.reachable (.start ⟨_, _, rfl⟩)
  obtain ⟨unfreed, nobody⟩ := (pipe_freed reachable).1 1 false (of_decide_eq_true last)
  exact ⟨s, t, reachable, freeing, ⟨unfreed, fun m there => nobody 0 m (by decide) there⟩, freed,
    (pipe_freed (freeing.reachable reachable)).2 freed⟩

end OsLab.Kernel.Pipe
