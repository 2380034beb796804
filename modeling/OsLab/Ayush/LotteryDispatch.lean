import OsLab.Ayush.Lottery

/-! `run_lottery` as a dispatcher without a key, and its quantum. -/

namespace OsLab.Ayush.Lottery

open OsLab.Library

/-- A process as `main.c` hands it over. -/
structure Fresh (process : Process) : Prop where
  burst : 1 ≤ process.burstTime
  remaining : process.remainingTime = process.burstTime
  tickets : 1 ≤ process.tickets
  ready : process.state = .ready

variable {n c : ℕ} {sim : Sim n c} {jobs : Fin n → Process} {rand : ℕ → Int}

def layout (n c : ℕ) : Layout (Sim n c) (Fin n) Process (Cpu n) c where
  tasks sim := sim.processes
  procs sim := sim.cpus
  clock sim := sim.currentTime
  done sim := sim.completedCount
  held := Cpu.currentProcessId
  status p := p.state.status
  home := Process.cpuId
  left := Process.remainingTime
  completion := Process.completionTime

/-- The processes are still those of the array that was handed over. -/
structure Descends (jobs : Fin n → Process) (sim : Sim n c) : Prop where
  arrival : ∀ x, (sim.processes x).arrivalTime = (jobs x).arrivalTime
  burst : ∀ x, (sim.processes x).burstTime = (jobs x).burstTime
  tickets : ∀ x, (sim.processes x).tickets = (jobs x).tickets

/-! ### The draws of a tick -/

structure Drawn (before after : Sim n c) : Prop where
  time : after.currentTime = before.currentTime
  count : after.completedCount = before.completedCount
  remaining : ∀ x, (after.processes x).remainingTime = (before.processes x).remainingTime
  completion : ∀ x, (after.processes x).completionTime = (before.processes x).completionTime
  descends : ∀ jobs, Descends jobs before → Descends jobs after

theorem Drawn.refl (sim : Sim n c) : Drawn sim sim :=
  ⟨rfl, rfl, fun _ => rfl, fun _ => rfl, fun _ descends => descends⟩

theorem Drawn.trans {first second third : Sim n c} (left : Drawn first second)
    (right : Drawn second third) : Drawn first third where
  time := right.time.trans left.time
  count := right.count.trans left.count
  remaining x := (right.remaining x).trans (left.remaining x)
  completion x := (right.completion x).trans (left.completion x)
  descends jobs descends := right.descends jobs (left.descends jobs descends)

theorem dispatch_drawn (i : Fin c) (p : Fin n) : Drawn sim (dispatch sim i p) := by
  have kept : ∀ {α : Type} (field : Process → α),
      field ((dispatch sim i p).processes p) = field (sim.processes p) →
        ∀ x, field ((dispatch sim i p).processes x) = field (sim.processes x) := by
    intro α field same x
    by_cases here : x = p
    · subst x
      exact same
    · simp [dispatch, here]
  constructor
  · rfl
  · rfl
  · exact kept Process.remainingTime (by simp [dispatch])
  · exact kept Process.completionTime (by simp [dispatch])
  · intro jobs descends
    constructor
    · intro x
      rw [kept Process.arrivalTime (by simp [dispatch]), descends.arrival]
    · intro x
      rw [kept Process.burstTime (by simp [dispatch]), descends.burst]
    · intro x
      rw [kept Process.tickets (by simp [dispatch]), descends.tickets]

theorem dispatch_machine {i : Fin c} {b : Fin n} (idle : (sim.cpus i).currentProcessId = none)
    (draws : ℕ) : (layout n c).machine (dispatch { sim with draws := draws } i b) =
      ((layout n c).machine sim).put i b := by
  simp only [Layout.machine, Machine.put, Machine.mk.injEq]
  refine ⟨?_, ?_, ?_⟩
  · funext x
    by_cases same : x = b
    · subst x
      simp [layout, dispatch, State.status]
    · simp [layout, dispatch, same, Layout.row, idle]
  · funext x
    by_cases same : x = b
    · subst x
      simp [layout, dispatch]
    · simp [layout, dispatch, same]
  · funext j
    by_cases same : j = i
    · subst j
      simp [layout, dispatch, Layout.row]
    · simp [layout, dispatch, Layout.row, same]

theorem eligible_iff (descends : Descends jobs sim) (p : Fin n) : eligible sim p = true ↔
    ((layout n c).machine sim).Waiting (fun x => (jobs x).arrivalTime ≤ sim.currentTime) p := by
  simp [eligible, Machine.Waiting, Layout.machine, layout, descends.arrival]

theorem draw_visit (fresh : ∀ x, Fresh (jobs x)) (random : ∀ k, 0 ≤ rand k)
    (descends : Descends jobs sim) (i : Fin c) :
    Machine.Visit (fun x => (jobs x).arrivalTime ≤ sim.currentTime) (fun _ => 0) i
        ((layout n c).machine sim) ((layout n c).machine (draw rand sim i)) ∧
      Drawn sim (draw rand sim i) := by
  cases here : (sim.cpus i).currentProcessId with
  | some x =>
      have same : draw rand sim i = sim := by simp only [draw, here]
      rw [same]
      exact ⟨.keep here fun _ _ => le_refl _, .refl sim⟩
  | none =>
      have tickets : ∀ p, 1 ≤ (sim.processes p).tickets := by
        intro p
        rw [descends.tickets]
        exact (fresh p).tickets
      rcases draw_cases tickets random here with ⟨nobody, same⟩ | ⟨p, able, dispatched⟩
      · rw [same]
        refine ⟨.rest fun y waits => ?_, .refl sim⟩
        have able := (eligible_iff descends y).mpr waits
        simp [nobody y] at able
      · have drawn : Drawn sim (dispatch { sim with draws := sim.draws + 1 } i p) := by
          have moved := @dispatch_drawn n c { sim with draws := sim.draws + 1 } i p
          exact ⟨moved.time, moved.count, moved.remaining, moved.completion,
            fun jobs descends => moved.descends jobs
              ⟨descends.arrival, descends.burst, descends.tickets⟩⟩
        rw [dispatched, dispatch_machine here]
        refine ⟨.take ((eligible_iff descends p).mp able) (fun _ _ => le_refl _) ?_, drawn⟩
        intro x held
        simp [Layout.machine, Layout.row, layout, here] at held

theorem draws_pass (fresh : ∀ x, Fresh (jobs x)) (random : ∀ k, 0 ≤ rand k)
    (visits : List (Fin c)) {sim : Sim n c} (descends : Descends jobs sim) :
    Machine.Pass (fun x => (jobs x).arrivalTime ≤ sim.currentTime) (fun _ => 0) visits
        ((layout n c).machine sim) ((layout n c).machine (visits.foldl (draw rand) sim)) ∧
      Drawn sim (visits.foldl (draw rand) sim) := by
  induction visits generalizing sim with
  | nil => exact ⟨.nil _, .refl sim⟩
  | cons i rest ih =>
      obtain ⟨visit, drawn⟩ := draw_visit fresh random descends i
      obtain ⟨pass, later⟩ := ih (drawn.descends jobs descends)
      rw [drawn.time] at pass
      exact ⟨.cons visit pass, drawn.trans later⟩

/-- A draw changes no CPU but an idle one, which it may give a process for a whole quantum. -/
theorem draw_cpu (i j : Fin c) : (draw rand sim j).cpus i = sim.cpus i ∨
    (sim.cpus i).currentProcessId = none ∧
      ((draw rand sim j).cpus i).timeQuantumLeft = timeQuantum := by
  cases here : (sim.cpus j).currentProcessId with
  | some x => exact .inl (by simp only [draw, here])
  | none =>
      simp only [draw, here]
      split
      · exact .inl rfl
      · split
        · exact .inl rfl
        · by_cases same : i = j
          · subst i
            exact .inr ⟨here, by simp [dispatch]⟩
          · exact .inl (by simp [dispatch, same])

theorem draws_cpu (visits : List (Fin c)) (sim : Sim n c) (i : Fin c) :
    (visits.foldl (draw rand) sim).cpus i = sim.cpus i ∨
      (sim.cpus i).currentProcessId = none ∧
        ((visits.foldl (draw rand) sim).cpus i).timeQuantumLeft = timeQuantum := by
  induction visits generalizing sim with
  | nil => exact .inl rfl
  | cons j rest ih =>
      rw [List.foldl_cons]
      rcases ih (draw rand sim j) with kept | ⟨idle, quantum⟩
      · rw [kept]
        exact draw_cpu i j
      · have drawn : (draw rand sim j).cpus i = _ ∨ _ := draw_cpu i j
        rcases drawn with same | ⟨before, -⟩
        · rw [same] at idle
          exact .inr ⟨idle, quantum⟩
        · exact .inr ⟨before, quantum⟩

/-! ### The tick -/

def run (now : Int) (proc : Process) (cpu : Cpu n) : Process × Cpu n :=
  let remaining := proc.remainingTime - 1
  let quantum := cpu.timeQuantumLeft - 1
  if remaining = 0 then
    ({ proc with remainingTime := remaining, state := .finished, completionTime := now + 1 },
      { cpu with currentProcessId := none, timeQuantumLeft := quantum })
  else if quantum = 0 then
    ({ proc with remainingTime := remaining, state := .ready },
      { cpu with currentProcessId := none, timeQuantumLeft := quantum })
  else
    ({ proc with remainingTime := remaining }, { cpu with timeQuantumLeft := quantum })

theorem execute_run {i : Fin c} {x : Fin n} (here : (sim.cpus i).currentProcessId = some x) :
    (execute sim i).processes = Function.update sim.processes x
        (run sim.currentTime (sim.processes x) (sim.cpus i)).1 ∧
      (execute sim i).cpus = Function.update sim.cpus i
        (run sim.currentTime (sim.processes x) (sim.cpus i)).2 ∧
      (execute sim i).currentTime = sim.currentTime ∧
      (execute sim i).completedCount =
        sim.completedCount + if (sim.processes x).remainingTime - 1 = 0 then 1 else 0 := by
  by_cases last : (sim.processes x).remainingTime - 1 = 0
  · simp only [execute, here, run, last, if_true, and_self]
  · by_cases expired : (sim.cpus i).timeQuantumLeft - 1 = 0
    · simp only [execute, here, run, last, expired, if_true, if_false, add_zero, and_self]
    · simp only [execute, here, run, last, expired, if_false, add_zero, and_self]

theorem execute_idle {i : Fin c} (idle : (sim.cpus i).currentProcessId = none) :
    execute sim i = sim := by
  simp only [execute, idle]

theorem execute_serves (now : Int) :
    Serves (layout n c).tasks (layout n c).procs (layout n c).held (run now)
      (fun sim => (layout n c).clock sim = now) execute := by
  constructor
  · intro sim i idle
    exact execute_idle idle
  · intro sim i x same here
    rw [← same]
    exact (execute_run here).1
  · intro sim i x same here
    rw [← same]
    exact (execute_run here).2.1
  · intro sim i same
    cases here : (sim.cpus i).currentProcessId with
    | none => rw [execute_idle here, same]
    | some x => exact (execute_run here).2.2.1.trans same

theorem run_ran {now : Int} {proc : Process} {cpu : Cpu n} (running : proc.state = .running) :
    (layout n c).Ran now proc cpu (run now proc cpu).1 (run now proc cpu).2 := by
  by_cases last : proc.remainingTime - 1 = 0
  · simp only [run, last, if_true]
    constructor
    · rfl
    · exact last.symm
    · intro _
      exact ⟨rfl, rfl, rfl⟩
    · intro more
      simp only [layout] at more
      omega
  · by_cases expired : cpu.timeQuantumLeft - 1 = 0
    · simp only [run, last, expired, if_true, if_false]
      constructor
      · rfl
      · rfl
      · intro one
        simp only [layout] at one
        omega
      · exact fun _ => ⟨rfl, Or.inr ⟨rfl, rfl⟩⟩
    · simp only [run, last, expired, if_false]
      constructor
      · rfl
      · rfl
      · intro one
        simp only [layout] at one
        omega
      · exact fun _ => ⟨rfl, Or.inl ⟨by simpa [layout] using running, rfl⟩⟩

theorem run_finished {now : Int} {proc : Process} {cpu : Cpu n} (alive : proc.state ≠ .finished) :
    (run now proc cpu).1.state = .finished ↔ proc.remainingTime - 1 = 0 := by
  by_cases last : proc.remainingTime - 1 = 0
  · simp [run, last]
  · by_cases expired : cpu.timeQuantumLeft - 1 = 0 <;> simp [run, last, expired, alive]

theorem run_quantum {now : Int} {proc : Process} {cpu : Cpu n} {x : Fin n}
    (kept : (run now proc cpu).2.currentProcessId = some x) :
    cpu.currentProcessId = some x ∧
      (run now proc cpu).2.timeQuantumLeft = cpu.timeQuantumLeft - 1 ∧
      cpu.timeQuantumLeft - 1 ≠ 0 := by
  simp only [run] at kept ⊢
  split at kept
  · simp at kept
  · rename_i more
    rw [if_neg more]
    split at kept
    · simp at kept
    · rename_i going
      rw [if_neg going]
      exact ⟨kept, rfl, going⟩

theorem execute_descends (descends : Descends jobs sim) (visits : List (Fin c)) :
    Descends jobs (visits.foldl execute sim) := by
  induction visits generalizing sim with
  | nil => exact descends
  | cons i rest ih =>
      rw [List.foldl_cons]
      apply ih
      cases here : (sim.cpus i).currentProcessId with
      | none =>
          rw [execute_idle here]
          exact descends
      | some y =>
          have kept : ∀ {α : Type} (field : Process → α),
              (∀ now proc cpu, field (@run n now proc cpu).1 = field proc) →
                ∀ x, field ((execute sim i).processes x) = field (sim.processes x) := by
            intro α field same x
            rw [(execute_run here).1]
            by_cases equal : x = y
            · subst x
              rw [Function.update_self, same]
            · rw [Function.update_of_ne equal]
          constructor
          · intro x
            rw [kept Process.arrivalTime, descends.arrival]
            intro now proc cpu
            simp only [run]
            split_ifs <;> rfl
          · intro x
            rw [kept Process.burstTime, descends.burst]
            intro now proc cpu
            simp only [run]
            split_ifs <;> rfl
          · intro x
            rw [kept Process.tickets, descends.tickets]
            intro now proc cpu
            simp only [run]
            split_ifs <;> rfl

theorem rounds (fresh : ∀ x, Fresh (jobs x)) (random : ∀ k, 0 ≤ rand k) :
    (layout n c).Rounds (fun x => (jobs x).arrivalTime) (drawAll rand) execute (tick rand) run
      (Descends jobs) := by
  have passes := fun (sim : Sim n c) (descends : Descends jobs sim) =>
    draws_pass fresh random (List.finRange c) descends
  constructor
  · intro sim steady descends
    exact ((passes sim descends).1.dispatched steady.placed).placed
  · intro sim steady descends
    exact ((passes sim descends).1.dispatched steady.placed).conserving
  · intro sim steady descends
    obtain ⟨pass, drawn⟩ := passes sim descends
    exact ⟨drawn.time, drawn.count, drawn.remaining, drawn.completion,
      pass.finished steady.placed⟩
  · exact execute_serves
  · intro sim i idle
    exact congrArg (fun sim => sim.completedCount) (execute_idle idle)
  · intro now sim i x same here alive
    simp only [layout, State.status_finished, ne_eq] at alive ⊢
    rw [(execute_run here).2.2.2]
    simp only [run_finished alive]
  · intro now p cpu running
    exact run_ran (by simpa [layout] using running)
  · exact fun _ => rfl
  · exact fun _ => rfl
  · exact fun _ => rfl
  · exact fun _ => rfl
  · intro sim steady descends
    have before := (passes sim descends).2.descends jobs descends
    have after := execute_descends before (List.finRange c)
    exact ⟨after.arrival, after.burst, after.tickets⟩

theorem start_descends (c : ℕ) (jobs : Fin n → Process) : Descends jobs (start c jobs) := by
  constructor <;> exact fun _ => rfl

theorem start_steady (c : ℕ) (fresh : ∀ x, Fresh (jobs x)) :
    (layout n c).Steady (fun x => (jobs x).arrivalTime) (start c jobs) := by
  have ready := fun x => (fresh x).ready
  constructor
  · exact le_refl _
  · constructor
    · intro i x here
      simp [Layout.machine, Layout.row, layout, start] at here
    · intro x running
      simp [Layout.machine, layout, start, ready x] at running
  · intro x _
    have burst := (fresh x).burst
    simp only [layout, start]
    rw [(fresh x).remaining]
    exact burst
  · simp [layout, start, ready]

/-! ### The run -/

def head (rand : ℕ → Int) (jobs : Fin n → Process) (c t : ℕ) : Sim n c :=
  (tick rand)^[t] (start c jobs)

def row (rand : ℕ → Int) (jobs : Fin n → Process) (c t : ℕ) : Sim n c :=
  drawAll rand (head rand jobs c t)

theorem holds (fresh : ∀ x, Fresh (jobs x)) (random : ∀ k, 0 ≤ rand k) (c t : ℕ) :
    (layout n c).Steady (fun x => (jobs x).arrivalTime) (head rand jobs c t) ∧
      Descends jobs (head rand jobs c t) ∧ (head rand jobs c t).currentTime = t :=
  (rounds fresh random).holds (start_steady c fresh) rfl (start_descends c jobs) t

structure Dispatched (now : ℕ) (sim : Sim n c) : Prop where
  time : sim.currentTime = now
  once : ∀ i j x, (sim.cpus i).currentProcessId = some x →
    (sim.cpus j).currentProcessId = some x → i = j
  running : ∀ x, (sim.processes x).state = .running ↔
    ∃ i, (sim.cpus i).currentProcessId = some x
  idle : ∀ i, (sim.cpus i).currentProcessId = none →
    ∀ x, (sim.processes x).state = .ready → now < (sim.processes x).arrivalTime
  arrived : ∀ i x, (sim.cpus i).currentProcessId = some x → (sim.processes x).arrivalTime ≤ now

theorem row_dispatched (fresh : ∀ x, Fresh (jobs x)) (random : ∀ k, 0 ≤ rand k) (c t : ℕ) :
    Dispatched t (row rand jobs c t) := by
  obtain ⟨steady, descends, time⟩ := holds fresh random c t
  obtain ⟨pass, drawn⟩ := draws_pass fresh random (List.finRange c) descends
  have dispatched := pass.dispatched steady.placed
  have placed := dispatched.placed
  have arrival := (drawn.descends jobs descends).arrival
  constructor
  · exact drawn.time.trans time
  · intro i j x first second
    exact placed.once first second
  · intro x
    constructor
    · intro running
      exact placed.held x (State.status_running.mpr running)
    · rintro ⟨i, here⟩
      exact State.status_running.mp (placed.busy i x here).1
  · intro i idle x ready
    by_contra early
    refine dispatched.conserving i idle x ⟨State.status_ready.mpr ready, ?_⟩
    rw [row, drawAll, arrival] at early
    omega
  · intro i x here
    have came := (placed.busy i x here).2.2
    rw [row, drawAll, arrival, ← time]
    exact came

/-- A CPU that runs a process in a tick keeps it with less of the quantum left, or gives it up. -/
theorem next_cpu (fresh : ∀ x, Fresh (jobs x)) (random : ∀ k, 0 ≤ rand k) {t : ℕ} {i : Fin c}
    {x : Fin n} (here : ((row rand jobs c t).cpus i).currentProcessId = some x) :
    ((head rand jobs c (t + 1)).cpus i).currentProcessId = none ∨
      ((row rand jobs c (t + 1)).cpus i).currentProcessId = some x ∧
        ((row rand jobs c (t + 1)).cpus i).timeQuantumLeft =
          ((row rand jobs c t).cpus i).timeQuantumLeft - 1 ∧
        ((row rand jobs c t).cpus i).timeQuantumLeft - 1 ≠ 0 := by
  obtain ⟨steady, descends, -⟩ := holds fresh random c t
  have next : (head rand jobs c (t + 1)).cpus i = (run (head rand jobs c t).currentTime
      ((row rand jobs c t).processes x) ((row rand jobs c t).cpus i)).2 := by
    rw [head, Function.iterate_succ_apply']
    exact ((rounds fresh random).next_run steady descends here).2
  cases held : ((head rand jobs c (t + 1)).cpus i).currentProcessId with
  | none => exact .inl rfl
  | some y =>
      have kept := held
      rw [next] at kept
      obtain ⟨before, less, more⟩ := run_quantum kept
      have drawn : (row rand jobs c (t + 1)).cpus i = (head rand jobs c (t + 1)).cpus i := by
        have drawn : ((List.finRange c).foldl (draw rand) (head rand jobs c (t + 1))).cpus i = _ ∨ _ :=
          draws_cpu _ _ i
        rcases drawn with same | ⟨idle, -⟩
        · exact same
        · simp [held] at idle
      right
      rw [drawn]
      refine ⟨?_, ?_, more⟩
      · rw [held, ← before, here]
      · rw [next, less]

theorem released (fresh : ∀ x, Fresh (jobs x)) (random : ∀ k, 0 ≤ rand k) {i : Fin c} {x : Fin n}
    (quantum : ℕ) {t : ℕ} (here : ((row rand jobs c t).cpus i).currentProcessId = some x)
    (left : ((row rand jobs c t).cpus i).timeQuantumLeft = quantum + 1) :
    ∃ ticks, 1 ≤ ticks ∧ ticks ≤ quantum + 1 ∧
      (∀ u < ticks, ((row rand jobs c (t + u)).cpus i).currentProcessId = some x) ∧
      ((head rand jobs c (t + ticks)).cpus i).currentProcessId = none := by
  induction quantum generalizing t with
  | zero =>
      rcases next_cpu fresh random here with idle | ⟨-, -, more⟩
      · refine ⟨1, le_refl _, le_refl _, fun u less => ?_, idle⟩
        obtain rfl : u = 0 := by omega
        exact here
      · push_cast at left
        omega
  | succ quantum ih =>
      rcases next_cpu fresh random here with idle | ⟨kept, less, -⟩
      · refine ⟨1, le_refl _, by omega, fun u less => ?_, idle⟩
        obtain rfl : u = 0 := by omega
        exact here
      · push_cast at left
        obtain ⟨ticks, least, most, runs, idle⟩ := ih kept (by omega)
        refine ⟨ticks + 1, by omega, by omega, fun u before => ?_, ?_⟩
        · cases u with
          | zero => exact here
          | succ u =>
              have later := runs u (by omega)
              rwa [show t + 1 + u = t + (u + 1) by omega] at later
        · rwa [show t + 1 + ticks = t + (ticks + 1) by omega] at idle

theorem dispatch_released (fresh : ∀ x, Fresh (jobs x)) (random : ∀ k, 0 ≤ rand k) {t : ℕ}
    {i : Fin c} {x : Fin n} (idle : ((head rand jobs c t).cpus i).currentProcessId = none)
    (here : ((row rand jobs c t).cpus i).currentProcessId = some x) :
    ∃ ticks, 1 ≤ ticks ∧ ticks ≤ 4 ∧
      (∀ u < ticks, ((row rand jobs c (t + u)).cpus i).currentProcessId = some x) ∧
      ((head rand jobs c (t + ticks)).cpus i).currentProcessId = none := by
  apply released fresh random 3 here
  have drawn : ((List.finRange c).foldl (draw rand) (head rand jobs c t)).cpus i = _ ∨ _ :=
    draws_cpu _ _ i
  rcases drawn with same | ⟨-, whole⟩
  · rw [row, drawAll, same, idle] at here
    simp at here
  · exact whole

/-- What the process and its line of `print_metrics` say after a run of `ticks` ticks. -/
structure Accounted (rand : ℕ → Int) (jobs : Fin n → Process) (c ticks : ℕ) (x : Fin n) : Prop where
  finished : ((head rand jobs c ticks).processes x).state = .finished
  executed : (((Finset.range ticks).filter fun t => ∃ i,
    ((row rand jobs c t).cpus i).currentProcessId = some x).card : ℤ) = (jobs x).burstTime
  waited : (metrics ((head rand jobs c ticks).processes x)).waiting =
    (((Finset.range ticks).filter fun t : ℕ => (jobs x).arrivalTime ≤ t ∧
      ((row rand jobs c t).processes x).state = .ready).card : ℤ)

/-- At every tick of every lottery all CPUs are used that can be, nobody keeps one for more than four
ticks, and the run ends with each process having had its burst. -/
theorem tickets_drawn (jobs : Fin n → Process) (fresh : ∀ x, Fresh (jobs x))
    (nonneg : ∀ x, 0 ≤ (jobs x).arrivalTime) (processors : 0 < c) (rand : ℕ → Int)
    (random : ∀ k, 0 ≤ rand k) :
    (∀ t, Dispatched t (row rand jobs c t)) ∧
    (∀ t i x, ((head rand jobs c t).cpus i).currentProcessId = none →
      ((row rand jobs c t).cpus i).currentProcessId = some x →
        ∃ ticks, 1 ≤ ticks ∧ ticks ≤ 4 ∧
          (∀ u < ticks, ((row rand jobs c (t + u)).cpus i).currentProcessId = some x) ∧
          ((head rand jobs c (t + ticks)).cpus i).currentProcessId = none) ∧
    ∃ fuel ticks, runLottery fuel rand jobs c = some (head rand jobs c ticks).processes ∧
      ∀ x, Accounted rand jobs c ticks x := by
  refine ⟨row_dispatched fresh random c,
    fun t i x idle here => dispatch_released fresh random idle here, ?_⟩
  have steady := start_steady c fresh
  have schedule := (rounds fresh random).schedule steady rfl (start_descends c jobs) nonneg
    (fun x => (fresh x).burst) (fun x => by simpa [layout, start] using (fresh x).ready)
    (fun x => (fresh x).remaining)
  obtain ⟨fuel, ticks, ended, finished⟩ := (rounds fresh random).ends steady rfl
    (start_descends c jobs) schedule (Fintype.card_fin n) processors
  refine ⟨fuel, ticks, congrArg (Option.map fun sim : Sim n c => sim.processes) ended,
    fun x => ?_⟩
  have past := finished x
  have accounted := schedule.accounted past
  have descends := (holds fresh random c ticks).2.1
  constructor
  · exact State.status_finished.mp past
  · rw [← accounted.served]
    congr 2
    apply Finset.filter_congr
    intro t _
    exact ((schedule.cycle t).running x).symm
  · obtain ⟨completion, same, -, total, -⟩ := (schedule.kept_all ticks x).completed past
    have ended : ((head rand jobs c ticks).processes x).completionTime = completion := same
    have waits : Schedule.waited (fun x => (jobs x).arrivalTime) (fun t x =>
        (layout n c).status ((layout n c).tasks (row rand jobs c t) x)) x ticks =
        (Finset.range ticks).filter fun t : ℕ => (jobs x).arrivalTime ≤ t ∧
          ((row rand jobs c t).processes x).state = .ready := by
      apply Finset.filter_congr
      intro t _
      exact and_congr_right fun _ => State.status_ready
    rw [← waits]
    simp only [metrics, descends.arrival, descends.burst, ended]
    rw [sub_sub, sub_eq_iff_eq_add']
    exact total

/-- The first rows of the table in `main.c`, on one CPU, with `rand()` counting up. -/
theorem tickets_drawn_firstRows :
    (∀ t, Dispatched t (row (fun k => k) Rms.firstRows 1 t)) ∧
    (∀ t i x, ((head (fun k => k) Rms.firstRows 1 t).cpus i).currentProcessId = none →
      ((row (fun k => k) Rms.firstRows 1 t).cpus i).currentProcessId = some x →
        ∃ ticks, 1 ≤ ticks ∧ ticks ≤ 4 ∧
          (∀ u < ticks,
            ((row (fun k => k) Rms.firstRows 1 (t + u)).cpus i).currentProcessId = some x) ∧
          ((head (fun k => k) Rms.firstRows 1 (t + ticks)).cpus i).currentProcessId = none) ∧
    ∃ fuel ticks, runLottery fuel (fun k => k) Rms.firstRows 1 =
        some (head (fun k => k) Rms.firstRows 1 ticks).processes ∧
      ∀ x, Accounted (fun k => k) Rms.firstRows 1 ticks x := by
  refine tickets_drawn Rms.firstRows ?_ (by decide) (by decide) (fun k => k) Int.natCast_nonneg
  intro x
  fin_cases x <;> constructor <;> decide

end OsLab.Ayush.Lottery
