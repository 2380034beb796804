import OsLab.Aryan.Cycles
import OsLab.Library.Loop
import Mathlib.Data.Fin.VecNotation
import Mathlib.Order.Interval.Finset.Nat

/-!
`run_custom_rr`. An idle CPU takes the first READY process of the array that has arrived, so the
order in which processes get a CPU is that of the array and not that of a queue.
-/

namespace OsLab.Aryan.RoundRobin

open OsLab.Library

variable {np ncpus : ℕ}

/-- The scan `for (p = 0; p < num_processes; p++)` up to its `break`. -/
def firstReady (processes : Fin np → Process) (currentTime : Int) : Option (Fin np) :=
  (List.finRange np).find? fun p =>
    (processes p).state = .ready && (processes p).arrivalTime ≤ currentTime

def assign (timeQuantum : Int) (sim : Sim np ncpus) : Sim np ncpus :=
  (List.finRange ncpus).foldl (assignIdle firstReady fun _ _ => timeQuantum) sim

def tick (currentTime : Int) (process : Process) (cpu : Cpu np) : Ticked np :=
  let process := { process with remainingTime := process.remainingTime - 1 }
  let cpu := { cpu with timeQuantumLeft := cpu.timeQuantumLeft - 1 }
  if process.remainingTime = 0 then
    { process := { process with state := .finished, completionTime := currentTime + 1 }
      cpu := { cpu with currentProcessId := none }
      completed := 1 }
  else if cpu.timeQuantumLeft = 0 then
    { process := { process with state := .ready }
      cpu := { cpu with currentProcessId := none }
      completed := 0 }
  else
    { process := process, cpu := cpu, completed := 0 }

def clockCycle (timeQuantum : Int) (sim : Sim np ncpus) : Sim np ncpus :=
  runTick tick (assign timeQuantum sim)

/-- `processes[]` when the `while` loop ends within `fuel` ticks. -/
def runCustomRr (fuel : ℕ) (processes : Fin np → Process) (ncpus : ℕ) (timeQuantum : Int) :
    Option (Fin np → Process) :=
  (whileLoop (fun sim : Sim np ncpus => sim.completedCount < np) (clockCycle timeQuantum) fuel
    (start ncpus processes)).map Sim.processes

def position (x : Fin np) (_ : Process) : ℤ := x

theorem firstReady_selects : Selects (firstReady : (Fin np → Process) → Int → Option (Fin np))
    (fun _ => True) position := by
  constructor
  · intro p now nothing x ready arrived
    have worse := List.find?_eq_none.mp nothing x (List.mem_finRange x)
    simp [ready, arrived] at worse
  · intro p now b found
    obtain ⟨chosen, i, bound, here, before⟩ := List.find?_eq_some_iff_getElem.mp found
    simp only [Bool.and_eq_true, decide_eq_true_eq] at chosen
    refine ⟨chosen.1, chosen.2, trivial, ?_⟩
    intro x ready arrived _
    by_contra lower
    have less : (x : ℕ) < i := by
      have index := congrArg Fin.val here
      simp only [List.getElem_finRange, Fin.val_cast] at index
      simp only [position] at lower
      omega
    have passed := before x less
    simp [ready, arrived] at passed
  · exact fun _ _ _ => Iff.rfl
  · exact fun _ _ _ _ => rfl

theorem tick_ticks : Ticks (tick : Int → Process → Cpu np → Ticked np) fun _ => True := by
  constructor
  · intro now p c
    simp only [tick]
    split_ifs <;> rfl
  · intro now p c
    simp only [tick]
    split_ifs <;> rfl
  · exact fun _ _ _ => Iff.rfl
  · intro now p c
    simp only [tick]
    split_ifs <;> rfl
  · intro now p c last
    have zero : p.remainingTime - 1 = 0 := by omega
    simp [tick, zero]
  · intro now p c more
    have some : p.remainingTime - 1 ≠ 0 := by omega
    by_cases spent : c.timeQuantumLeft - 1 = 0
    · simp [tick, some, spent]
    · simp [tick, some, spent]

theorem runCustomRr_ends {jobs : Fin np → Process} {ncpus : ℕ} (fresh : ∀ x, Fresh (jobs x))
    (processors : 0 < ncpus) (timeQuantum : Int) :
    ∃ fuel p, runCustomRr fuel jobs ncpus timeQuantum = some p ∧
      ∀ x, (p x).state = .finished := by
  obtain ⟨fuel, final, ended, finished⟩ := (ends_iff firstReady_selects tick_ticks
    (fun _ _ => timeQuantum) fresh processors).mpr fun _ => trivial
  have whole : whileLoop (fun sim : Sim np ncpus => sim.completedCount < np)
      (clockCycle timeQuantum) fuel (start ncpus jobs) = some final := ended
  exact ⟨fuel, final.processes, by rw [runCustomRr, whole, Option.map_some], finished⟩

/-! ### The order of the array -/

def Dispatched (timeQuantum : Int) (sim : Sim np ncpus) (x : Fin np) : Prop :=
  (sim.processes x).state = .ready ∧ ((assign timeQuantum sim).processes x).state = .running

def Waits (timeQuantum : Int) (sim : Sim np ncpus) (x : Fin np) : Prop :=
  ((assign timeQuantum sim).processes x).state = .ready ∧
    (sim.processes x).arrivalTime ≤ sim.currentTime

/-- The process has a CPU in the tick and is READY at its end. -/
def PutBack (timeQuantum : Int) (sim : Sim np ncpus) (x : Fin np) : Prop :=
  ((assign timeQuantum sim).processes x).state = .running ∧
    ((clockCycle timeQuantum sim).processes x).state = .ready

/-- No process that has had its quantum gets another before one that was waiting then. -/
def Fair (timeQuantum : Int) (sims : ℕ → Sim np ncpus) : Prop :=
  ∀ t p, PutBack timeQuantum (sims t) p → ∀ t', t < t' → Dispatched timeQuantum (sims t') p →
    ∀ q, q ≠ p → Waits timeQuantum (sims t) q →
      ∃ u, t < u ∧ u ≤ t' ∧ Dispatched timeQuantum (sims u) q

/-- The process has a CPU, and the tick ends its quantum before its work. -/
def Expires (sim : Sim np ncpus) (x : Fin np) : Prop :=
  ∃ i, (sim.cpus i).currentProcessId = some x ∧ (sim.cpus i).timeQuantumLeft = 1 ∧
    (sim.processes x).remainingTime ≠ 1

instance (sim : Sim np ncpus) : DecidablePred (Expires sim) :=
  fun _ => inferInstanceAs (Decidable (∃ _, _ ∧ _ ∧ _))

def Ends (sim : Sim np ncpus) (i : Fin ncpus) : Prop :=
  ∀ x, (sim.cpus i).currentProcessId = some x →
    (sim.processes x).remainingTime = 1 ∨ (sim.cpus i).timeQuantumLeft = 1

instance (sim : Sim np ncpus) : DecidablePred (Ends sim) :=
  fun _ => inferInstanceAs (Decidable (∀ _, _ → _ ∨ _))

def queued (sim : Sim np ncpus) : Finset (Fin np) :=
  Finset.univ.filter fun x => (sim.processes x).state = .ready ∧
    (sim.processes x).arrivalTime ≤ sim.currentTime + 1 ∨ Expires sim x

/-- More CPUs are idle after the tick than processes wait then in front of this one. -/
def Next (sim : Sim np ncpus) (x : Fin np) : Prop :=
  ((queued sim).filter (· < x)).card < (Finset.univ.filter (Ends sim)).card

instance (sim : Sim np ncpus) : DecidablePred (Next sim) :=
  fun _ => inferInstanceAs (Decidable (_ < _))

/-- Before the tick: `p` is about to be put back, and `q` behind it in the array waits. -/
structure Passed (sim : Sim np ncpus) (p q : Fin np) : Prop where
  index : p < q
  expires : Expires sim p
  ready : (sim.processes q).state = .ready
  arrived : (sim.processes q).arrivalTime ≤ sim.currentTime

theorem passed_iff {sim : Sim np ncpus} {p q : Fin np} : Passed sim p q ↔
    p < q ∧ Expires sim p ∧ (sim.processes q).state = .ready ∧
      (sim.processes q).arrivalTime ≤ sim.currentTime :=
  ⟨fun passed => ⟨passed.index, passed.expires, passed.ready, passed.arrived⟩,
    fun ⟨index, expires, ready, arrived⟩ => ⟨index, expires, ready, arrived⟩⟩

instance (sim : Sim np ncpus) (p q : Fin np) : Decidable (Passed sim p q) :=
  decidable_of_iff _ passed_iff.symm

variable {timeQuantum : Int} {sim : Sim np ncpus}

instance (x : Fin np) : Decidable (Dispatched timeQuantum sim x) :=
  inferInstanceAs (Decidable (_ ∧ _))

instance (x : Fin np) : Decidable (Waits timeQuantum sim x) :=
  inferInstanceAs (Decidable (_ ∧ _))

instance (x : Fin np) : Decidable (PutBack timeQuantum sim x) :=
  inferInstanceAs (Decidable (_ ∧ _))

theorem assign_still (timeQuantum : Int) (sim : Sim np ncpus) : Still sim (assign timeQuantum sim) :=
  assignIdle_foldl_still _ _ _ sim

theorem assign_fill (timeQuantum : Int) (sim : Sim np ncpus) :
    Machine.Fill (Eligible (fun _ => True) sim) (fun x => position x (sim.processes x))
      (List.finRange ncpus) (machine sim) (machine (assign timeQuantum sim)) :=
  firstReady_selects.fill _ (List.finRange ncpus) sim

theorem waits_iff {x : Fin np} : Waits timeQuantum sim x ↔
    (machine (assign timeQuantum sim)).Waiting (Eligible (fun _ => True) sim) x := by
  simp [Waits, Machine.Waiting, machine, Eligible]

theorem clockCycle_consistent (consistent : Consistent sim) :
    Consistent (clockCycle timeQuantum sim) :=
  runTick_consistent tick_ticks.runs (firstReady_selects.consistent _ _ consistent)

/-! ### Fairness -/

theorem position_injective (sim : Sim np ncpus) :
    Function.Injective fun x : Fin np => position x (sim.processes x) := by
  intro x y same
  exact Fin.ext (Int.ofNat_inj.mp same)

theorem dispatched_of_gone {x : Fin np} (consistent : Consistent sim) (waits : x ∈ waiting sim)
    (gone : ¬ Waits timeQuantum sim x) : Dispatched timeQuantum sim x := by
  have fill := assign_fill timeQuantum sim
  rw [waits_iff] at gone
  obtain ⟨i, -, here⟩ := fill.given (waiting_iff.mp waits) gone
  have placed := fill.placed (fun _ able => able.1) consistent
  exact ⟨(mem_waiting.mp waits).1, (placed.busy i x here).1⟩

theorem Dispatched.gone {x : Fin np} (dispatched : Dispatched timeQuantum sim x) :
    ¬ Waits timeQuantum sim x := by
  intro waits
  have running := dispatched.2
  rw [waits.1] at running
  simp at running

theorem Dispatched.waiting {x : Fin np} (consistent : Consistent sim)
    (dispatched : Dispatched timeQuantum sim x) : x ∈ waiting sim := by
  have placed := (assign_fill timeQuantum sim).placed (fun _ able => able.1) consistent
  obtain ⟨i, here⟩ := placed.held x dispatched.2
  have arrived := (placed.busy i x here).2.2
  exact mem_waiting.mpr ⟨dispatched.1, arrived⟩

theorem dispatched_iff {x : Fin np} (consistent : Consistent sim) (waits : x ∈ waiting sim) :
    Dispatched timeQuantum sim x ↔ (ahead position sim x).card < (idle sim).card := by
  have taken := (assign_fill timeQuantum sim).taken_iff (position_injective sim)
    (waiting_iff.mp waits)
  rw [← waits_iff] at taken
  rw [ahead_eq, idle_eq, ← taken]
  exact ⟨Dispatched.gone, dispatched_of_gone consistent waits⟩

theorem lower_first {x y : Fin np} (consistent : Consistent sim) (less : x < y)
    (waits : Waits timeQuantum sim x) (dispatched : Dispatched timeQuantum sim y) : False := by
  have fill := assign_fill timeQuantum sim
  have gone := dispatched.gone
  have before := waiting_iff.mp (dispatched.waiting consistent)
  rw [waits_iff] at gone waits
  obtain ⟨i, free, here⟩ := fill.given before gone
  have bound := (fill.taken free here).2.2 x waits
  have index : (x : ℕ) < y := less
  simp only [position] at bound
  omega

theorem Waits.next {x : Fin np} (consistent : Consistent sim) (waits : Waits timeQuantum sim x) :
    x ∈ waiting (clockCycle timeQuantum sim) := by
  have placed := (assign_fill timeQuantum sim).placed (fun _ able => able.1) consistent
  have absent : ∀ i, row (assign timeQuantum sim) i ≠ some x := by
    intro i here
    have running := (placed.busy i x here).1
    simp only [machine] at running
    rw [waits.1] at running
    simp at running
  have still := assign_still timeQuantum sim
  have same : (runTick tick (assign timeQuantum sim)).processes x =
      (assign timeQuantum sim).processes x := runTick_other absent
  have time := runTick_time tick (assign timeQuantum sim)
  rw [mem_waiting, clockCycle, same, time, still.time, (still.process x).arrival]
  exact ⟨waits.1, by have := waits.2; omega⟩

theorem PutBack.next {x : Fin np} (consistent : Consistent sim)
    (back : PutBack timeQuantum sim x) : x ∈ waiting (clockCycle timeQuantum sim) := by
  have placed := (assign_fill timeQuantum sim).placed (fun _ able => able.1) consistent
  obtain ⟨i, here⟩ := placed.held x back.1
  have arrived := (placed.busy i x here).2.2
  have still := assign_still timeQuantum sim
  have time := runTick_time tick (assign timeQuantum sim)
  have arrival := runTick_arrival tick_ticks.runs (assign timeQuantum sim) x
  rw [mem_waiting]
  refine ⟨back.2, ?_⟩
  rw [clockCycle, arrival, time, still.time, (still.process x).arrival]
  omega

def head (timeQuantum : Int) (ncpus : ℕ) (jobs : Fin np → Process) (t : ℕ) : Sim np ncpus :=
  (clockCycle timeQuantum)^[t] (start ncpus jobs)

theorem head_succ (timeQuantum : Int) (ncpus : ℕ) (jobs : Fin np → Process) (t : ℕ) :
    head timeQuantum ncpus jobs (t + 1) =
      clockCycle timeQuantum (head timeQuantum ncpus jobs t) :=
  Function.iterate_succ_apply' _ _ _

variable {jobs : Fin np → Process}

theorem head_consistent (timeQuantum : Int) (ncpus : ℕ) (ready : ∀ x, (jobs x).state = .ready)
    (t : ℕ) : Consistent (head timeQuantum ncpus jobs t) := by
  induction t with
  | zero => exact start_consistent ready
  | succ t ih =>
      rw [head_succ]
      exact clockCycle_consistent ih

theorem stays (ready : ∀ x, (jobs x).state = .ready) {p : Fin np} {first last : ℕ}
    (before : p ∈ waiting (head timeQuantum ncpus jobs first)) (order : first ≤ last)
    (undispatched : ∀ u, first ≤ u → u < last →
      ¬ Dispatched timeQuantum (head timeQuantum ncpus jobs u) p) :
    p ∈ waiting (head timeQuantum ncpus jobs last) ∧
      ∀ u, first ≤ u → u < last → Waits timeQuantum (head timeQuantum ncpus jobs u) p := by
  have waits : ∀ u, p ∈ waiting (head timeQuantum ncpus jobs u) →
      ¬ Dispatched timeQuantum (head timeQuantum ncpus jobs u) p →
      Waits timeQuantum (head timeQuantum ncpus jobs u) p := by
    intro u here missed
    by_contra gone
    exact missed (dispatched_of_gone (head_consistent timeQuantum ncpus ready u) here gone)
  induction last, order using Nat.le_induction with
  | base => exact ⟨before, fun u lower upper => absurd upper (by omega)⟩
  | succ last order ih =>
      obtain ⟨here, past⟩ := ih fun u lower upper => undispatched u lower (by omega)
      have now := waits last here (undispatched last order (by omega))
      refine ⟨?_, ?_⟩
      · rw [head_succ]
        exact now.next (head_consistent timeQuantum ncpus ready last)
      · intro u lower upper
        by_cases same : u = last
        · rw [same]
          exact now
        · exact past u lower (by omega)

/-! ### After a tick -/

theorem runTick_served (placed : Consistent sim) {i : Fin ncpus} {x : Fin np}
    (here : row sim i = some x) :
    (runTick tick sim).processes x =
        (tick sim.currentTime (sim.processes x) (sim.cpus i)).process ∧
      (runTick tick sim).cpus i = (tick sim.currentTime (sim.processes x) (sim.cpus i)).cpu :=
  (execute_serves tick sim.currentTime).served rfl (List.nodup_finRange ncpus)
    (List.mem_finRange i) here fun _ _ twice => placed.once twice here

theorem runTick_idle {i : Fin ncpus} (free : row sim i = none) :
    row (runTick tick sim) i = none := by
  have kept : ∀ visits : List (Fin ncpus), ∀ s : Sim np ncpus, row s i = none →
      row (visits.foldl (execute tick) s) i = none := by
    intro visits
    induction visits with
    | nil => exact fun _ free => free
    | cons j rest ih =>
        intro s free
        refine ih _ ?_
        by_cases same : j = i
        · subst j
          rw [execute_none free]
          exact free
        · cases here : (s.cpus j).currentProcessId with
          | none => rwa [execute_none here]
          | some x => simpa [row, execute, here, Ne.symm same] using free
  exact kept _ sim free

theorem tick_state (now : Int) {p : Process} {c : Cpu np} (running : p.state = .running) :
    (tick now p c).process.state = .ready ↔ c.timeQuantumLeft = 1 ∧ p.remainingTime ≠ 1 := by
  simp only [tick]
  split_ifs <;> simp [running] <;> omega

theorem tick_current (now : Int) {p : Process} {c : Cpu np} {x : Fin np}
    (here : c.currentProcessId = some x) : (tick now p c).cpu.currentProcessId = none ↔
      p.remainingTime = 1 ∨ c.timeQuantumLeft = 1 := by
  simp only [tick]
  split_ifs <;> simp [here] <;> omega

theorem idle_runTick (consistent : Consistent sim) :
    idle (runTick tick sim) = Finset.univ.filter (Ends sim) := by
  ext i
  simp only [idle, Finset.mem_filter, Finset.mem_univ, true_and]
  cases here : row sim i with
  | none =>
      have free := runTick_idle here
      simp only [row] at free here
      simp [free, Ends, here]
  | some x =>
      rw [(runTick_served consistent here).2]
      simp only [row] at here
      rw [tick_current _ here]
      simp [Ends, here]

theorem waiting_runTick (consistent : Consistent sim) :
    waiting (runTick tick sim) = queued sim := by
  ext x
  have arrival := runTick_arrival tick_ticks.runs sim x
  have time := runTick_time tick sim
  rw [mem_waiting, arrival, time]
  simp only [queued, Finset.mem_filter, Finset.mem_univ, true_and]
  by_cases busy : ∃ i, row sim i = some x
  · obtain ⟨i, here⟩ := busy
    obtain ⟨running, -, arrived⟩ := consistent.busy i x here
    have state : (sim.processes x).state = .running := running
    have only : Expires sim x ↔
        (sim.cpus i).timeQuantumLeft = 1 ∧ (sim.processes x).remainingTime ≠ 1 := by
      constructor
      · rintro ⟨j, there, last⟩
        obtain rfl := consistent.once there here
        exact last
      · exact fun last => ⟨i, here, last⟩
    rw [(runTick_served consistent here).1, tick_state _ state, only]
    simp only [state, reduceCtorEq, false_and, false_or, and_iff_left_iff_imp]
    intro _
    omega
  · rw [not_exists] at busy
    rw [runTick_other busy]
    have lasting : ¬ Expires sim x := fun ⟨i, here, _⟩ => busy i here
    simp [lasting]

theorem assign_consistent (timeQuantum : Int) (consistent : Consistent sim) : Consistent (assign timeQuantum sim) :=
  firstReady_selects.consistent _ _ consistent

theorem putBack_iff (consistent : Consistent sim) {x : Fin np} :
    PutBack timeQuantum sim x ↔ Expires (assign timeQuantum sim) x := by
  have placed := assign_consistent timeQuantum consistent
  constructor
  · intro back
    have after := back.next consistent
    rw [clockCycle, waiting_runTick placed, queued, Finset.mem_filter] at after
    rcases after.2 with ⟨ready, -⟩ | expires
    · rw [back.1] at ready
      cases ready
    · exact expires
  · intro expires
    have member : x ∈ queued (assign timeQuantum sim) :=
      Finset.mem_filter.mpr ⟨Finset.mem_univ x, .inr expires⟩
    rw [← waiting_runTick placed, mem_waiting] at member
    obtain ⟨i, here, -⟩ := expires
    exact ⟨(placed.busy i x here).1, member.1⟩

/-- In the next tick a waiting process is dispatched when enough CPUs have become idle. -/
theorem dispatched_next_iff (consistent : Consistent sim) {x : Fin np}
    (waits : x ∈ waiting (clockCycle timeQuantum sim)) :
    Dispatched timeQuantum (clockCycle timeQuantum sim) x ↔
      Next (assign timeQuantum sim) x := by
  have placed := assign_consistent timeQuantum consistent
  have before : ahead position (clockCycle timeQuantum sim) x =
      (queued (assign timeQuantum sim)).filter (· < x) := by
    rw [ahead, clockCycle, waiting_runTick placed]
    refine Finset.filter_congr fun y _ => ?_
    simp only [position]
    omega
  rw [dispatched_iff (clockCycle_consistent consistent) waits, before, clockCycle,
    idle_runTick placed]
  rfl

theorem Passed.next (consistent : Consistent sim) {p q : Fin np}
    (passed : Passed (assign timeQuantum sim) p q) :
    PutBack timeQuantum sim p ∧ Waits timeQuantum sim q := by
  have still := assign_still timeQuantum sim
  have arrived := passed.arrived
  rw [(still.process q).arrival, still.time] at arrived
  exact ⟨(putBack_iff consistent).mpr passed.expires, passed.ready, arrived⟩

/-! ### Who is passed over -/

/-- A run is fair if whoever waits behind a process that is put back gets a CPU at once. -/
theorem fair_of_next (ready : ∀ x, (jobs x).state = .ready)
    (room : ∀ t p q, Passed (assign timeQuantum (head timeQuantum ncpus jobs t)) p q →
      Next (assign timeQuantum (head timeQuantum ncpus jobs t)) q) :
    Fair timeQuantum (head timeQuantum ncpus jobs) := by
  intro t p back t' order again q other waits
  have consistent := head_consistent timeQuantum ncpus ready
  have second := waits.next (consistent t)
  rcases lt_or_gt_of_ne other with below | above
  · -- in front of `p` in the array a waiting process is met first
    by_contra missed
    push Not at missed
    rw [← head_succ] at second
    have waiting := (stays ready second (show t + 1 ≤ t' by omega) fun u later earlier =>
      missed u (by omega) (by omega)).1
    refine lower_first (consistent t') below ?_ again
    by_contra gone
    exact missed t' order le_rfl (dispatched_of_gone (consistent t') waiting gone)
  · have still := assign_still timeQuantum (head timeQuantum ncpus jobs t)
    have passed : Passed (assign timeQuantum (head timeQuantum ncpus jobs t)) p q := by
      refine ⟨above, (putBack_iff (consistent t)).mp back, waits.1, ?_⟩
      rw [(still.process q).arrival, still.time]
      exact waits.2
    refine ⟨t + 1, by omega, order, ?_⟩
    rw [head_succ]
    exact (dispatched_next_iff (consistent t) second).mpr (room t p q passed)

theorem Fair.together (ready : ∀ x, (jobs x).state = .ready)
    (fair : Fair timeQuantum (head timeQuantum ncpus jobs)) {t t' : ℕ} {p q : Fin np}
    (passed : Passed (assign timeQuantum (head timeQuantum ncpus jobs t)) p q) (order : t < t')
    (again : Dispatched timeQuantum (head timeQuantum ncpus jobs t') p) :
    ∃ u, t < u ∧ u ≤ t' ∧ Dispatched timeQuantum (head timeQuantum ncpus jobs u) p ∧
      Dispatched timeQuantum (head timeQuantum ncpus jobs u) q := by
  classical
  have consistent := head_consistent timeQuantum ncpus ready
  obtain ⟨back, waits⟩ := passed.next (consistent t)
  have some : ∃ u, t < u ∧ Dispatched timeQuantum (head timeQuantum ncpus jobs u) p :=
    ⟨t', order, again⟩
  -- the first tick in which `p` is dispatched again
  obtain ⟨lower, turn⟩ := Nat.find_spec some
  have least : Nat.find some ≤ t' := Nat.find_min' some ⟨order, again⟩
  have before : ∀ u, t < u → u < Nat.find some →
      ¬ Dispatched timeQuantum (head timeQuantum ncpus jobs u) p :=
    fun u later earlier dispatched => Nat.find_min some earlier ⟨later, dispatched⟩
  generalize Nat.find some = first at lower turn least before
  obtain ⟨u, later, earlier, taken⟩ :=
    fair t p back first lower turn q (ne_of_gt passed.index) waits
  have now : u = first := by
    by_contra other
    have put := back.next (consistent t)
    rw [← head_succ] at put
    have since := (stays ready put (show t + 1 ≤ first by omega) fun u later earlier =>
      before u (by omega) earlier).2
    exact lower_first (consistent u) passed.index (since u (by omega) (by omega)) taken
  exact ⟨first, lower, least, turn, now ▸ taken⟩

theorem finished_next (consistent : Consistent sim) {x : Fin np}
    (finished : (sim.processes x).state = .finished) :
    ((clockCycle timeQuantum sim).processes x).state = .finished := by
  have placed := assign_consistent timeQuantum consistent
  have still : ((assign timeQuantum sim).processes x).state = .finished :=
    ((assign_fill timeQuantum sim).finished x).mpr finished
  have absent : ∀ i, row (assign timeQuantum sim) i ≠ some x := by
    intro i here
    have running := (placed.busy i x here).1
    simp [machine, still] at running
  rw [clockCycle, runTick_other absent, still]

theorem head_finished (ready : ∀ x, (jobs x).state = .ready) {first last : ℕ} (order : first ≤ last)
    {x : Fin np}
    (finished : ((head timeQuantum ncpus jobs first).processes x).state = .finished) :
    ((head timeQuantum ncpus jobs last).processes x).state = .finished := by
  induction last, order using Nat.le_induction with
  | base => exact finished
  | succ last _ ih =>
      rw [head_succ]
      exact finished_next (head_consistent timeQuantum ncpus ready last) ih

theorem head_ends (timeQuantum : Int) (fresh : ∀ x, Fresh (jobs x)) (processors : 0 < ncpus) :
    ∃ t, ∀ x, ((head timeQuantum ncpus jobs t).processes x).state = .finished := by
  obtain ⟨fuel, p, ran, finished⟩ := runCustomRr_ends fresh processors timeQuantum
  obtain ⟨final, ended, rfl⟩ := Option.map_eq_some_iff.mp ran
  have reaches : ∀ sim, (∃ t, sim = head timeQuantum ncpus jobs t) →
      decide (sim.completedCount < np) = true →
      ∃ t, clockCycle timeQuantum sim = head timeQuantum ncpus jobs t := by
    rintro _ ⟨t, rfl⟩ _
    exact ⟨t + 1, (head_succ timeQuantum ncpus jobs t).symm⟩
  obtain ⟨⟨t, rfl⟩, -⟩ := whileLoop_sound reaches ⟨0, rfl⟩ ended
  exact ⟨t, finished⟩

theorem dispatched_again (fresh : ∀ x, Fresh (jobs x)) (processors : 0 < ncpus) {t : ℕ} {p : Fin np}
    (back : PutBack timeQuantum (head timeQuantum ncpus jobs t) p) :
    ∃ u, t < u ∧ Dispatched timeQuantum (head timeQuantum ncpus jobs u) p := by
  have ready : ∀ x, (jobs x).state = .ready := fun x => (fresh x).ready
  obtain ⟨last, finished⟩ := head_ends timeQuantum fresh processors
  by_contra never
  push Not at never
  have put := back.next (head_consistent timeQuantum ncpus ready t)
  rw [← head_succ] at put
  have waits := (stays ready put (show t + 1 ≤ max last (t + 1) by omega) fun u later _ =>
    never u (by omega)).1
  have state := head_finished ready (le_max_left last (t + 1)) (finished p)
  rw [mem_waiting, state] at waits
  cases waits.1

/-- A run is fair when, whenever a process is about to be put back, whoever waits behind it gets a
CPU in the next tick. It is not when the process put back gets one then and the other does not, nor
ever on a single CPU. -/
theorem runCustomRr_fair (timeQuantum : Int) (ncpus : ℕ) (jobs : Fin np → Process)
    (ready : ∀ x, (jobs x).state = .ready) :
    ((∀ t p q, Passed (assign timeQuantum (head timeQuantum ncpus jobs t)) p q →
        Next (assign timeQuantum (head timeQuantum ncpus jobs t)) q) →
      Fair timeQuantum (head timeQuantum ncpus jobs)) ∧
    (Fair timeQuantum (head timeQuantum ncpus jobs) →
      ∀ t p q, Passed (assign timeQuantum (head timeQuantum ncpus jobs t)) p q →
        (Next (assign timeQuantum (head timeQuantum ncpus jobs t)) p →
          Next (assign timeQuantum (head timeQuantum ncpus jobs t)) q) ∧
        ((∀ x, Fresh (jobs x)) → ncpus ≠ 1)) := by
  have consistent := head_consistent timeQuantum ncpus ready
  refine ⟨fair_of_next ready, fun fair t p q passed => ⟨fun first => ?_, ?_⟩⟩
  · obtain ⟨back, waits⟩ := passed.next (consistent t)
    have turn := (dispatched_next_iff (consistent t) (back.next (consistent t))).mpr first
    rw [← head_succ] at turn
    obtain ⟨u, later, earlier, -, taken⟩ := fair.together ready passed (Nat.lt_succ_self t) turn
    obtain rfl : u = t + 1 := by omega
    rw [head_succ] at taken
    exact (dispatched_next_iff (consistent t) (waits.next (consistent t))).mp taken
  · rintro fresh rfl
    obtain ⟨back, -⟩ := passed.next (consistent t)
    obtain ⟨t', order, again⟩ := dispatched_again fresh Nat.one_pos back
    obtain ⟨u, -, -, one, two⟩ := fair.together ready passed order again
    have placed := assign_consistent timeQuantum (consistent u)
    obtain ⟨i, mine⟩ := placed.held p one.2
    obtain ⟨j, other⟩ := placed.held q two.2
    obtain rfl : i = j := Subsingleton.elim i j
    have same : p = q := Option.some.inj (mine.symm.trans other)
    exact absurd passed.index (by simp [same])

/-- On two CPUs the first process is put back while the third waits, and both get a CPU next. -/
def trio : Fin 3 → Process := ![initial 1 0 2 15, initial 2 0 1 60, initial 3 0 1 30]

theorem trio_finished {t : ℕ} (late : 2 ≤ t) (x : Fin 3) :
    ((head 1 2 trio t).processes x).state = .finished := by
  refine head_finished (by decide) late ?_
  revert x
  decide

theorem runCustomRr_fair_trio : PutBack 1 (head 1 2 trio 0) 0 ∧ Waits 1 (head 1 2 trio 0) 2 ∧
    Fair 1 (head 1 2 trio) := by
  refine ⟨by decide, by decide, (runCustomRr_fair 1 2 trio (by decide)).1 ?_⟩
  rintro (_ | _ | t) p q passed
  · revert p q
    decide
  · revert p q
    decide
  · have late : 2 ≤ t + 1 + 1 := by omega
    have gone := ((assign_fill 1 (head 1 2 trio (t + 1 + 1))).finished q).mpr (trio_finished late q)
    simp [machine, passed.ready] at gone

def pair : Fin 2 → Process := ![initial 1 0 2 15, initial 2 0 2 60]

/-- The first process has the only CPU in the ticks 0 and 1, while the second waits. -/
theorem runCustomRr_unfair : (∀ x, 1 ≤ (pair x).burstTime ∧
    (pair x).remainingTime = (pair x).burstTime ∧ (pair x).state = .ready) ∧
    ¬ Fair 1 (head 1 1 pair) := by
  refine ⟨by decide, ?_⟩
  intro fair
  obtain ⟨u, lower, upper, turn⟩ := fair 0 0 (by decide) 1 (by decide) (by decide) 1 (by decide)
    (by decide)
  obtain rfl : u = 1 := by omega
  exact absurd turn (by decide)

end OsLab.Aryan.RoundRobin
