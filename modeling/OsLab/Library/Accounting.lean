import OsLab.Library.Multiprocessor
import Mathlib.Algebra.BigOperators.Group.Finset.Basic
import Mathlib.Algebra.Order.BigOperators.Group.Finset
import Mathlib.Data.Int.Order.Basic

/-!
What a simulation of several processors adds up to. In each cycle the tasks that have a
processor lose one unit of work; a task that has arrived is served or waits in every
cycle until it has finished.
-/

namespace OsLab.Library

/-! ### The round over the processors -/

section Serve

variable {σ τ κ P C : Type*} [DecidableEq τ] [DecidableEq κ]

/-- A step of each processor that touches its own entry and the task it has. -/
structure Serves (tasks : σ → τ → P) (procs : σ → κ → C) (held : C → Option τ)
    (run : P → C → P × C) (fixed : σ → Prop) (exec : σ → κ → σ) : Prop where
  idle : ∀ s i, held (procs s i) = none → exec s i = s
  task : ∀ s i x, fixed s → held (procs s i) = some x →
    tasks (exec s i) = Function.update (tasks s) x (run (tasks s x) (procs s i)).1
  proc : ∀ s i x, fixed s → held (procs s i) = some x →
    procs (exec s i) = Function.update (procs s) i (run (tasks s x) (procs s i)).2
  kept : ∀ s i, fixed s → fixed (exec s i)

variable {tasks : σ → τ → P} {procs : σ → κ → C} {held : C → Option τ} {run : P → C → P × C}
  {fixed : σ → Prop} {exec : σ → κ → σ}

theorem Serves.other (serves : Serves tasks procs held run fixed exec) {s : σ} (start : fixed s)
    {i j : κ} (other : i ≠ j) : procs (exec s j) i = procs s i := by
  cases here : held (procs s j) with
  | none => rw [serves.idle s j here]
  | some x => rw [serves.proc s j x start here, Function.update_of_ne other]

theorem Serves.untouched (serves : Serves tasks procs held run fixed exec) {visits : List κ}
    {s : σ} (start : fixed s) {i : κ} (outside : i ∉ visits) :
    procs (visits.foldl exec s) i = procs s i := by
  induction visits generalizing s with
  | nil => rfl
  | cons j rest ih =>
      simp only [List.mem_cons, not_or] at outside
      rw [List.foldl_cons, ih (serves.kept s j start) outside.2]
      exact serves.other start outside.1

theorem Serves.fixed_foldl (serves : Serves tasks procs held run fixed exec) {visits : List κ}
    {s : σ} (start : fixed s) : fixed (visits.foldl exec s) := by
  induction visits generalizing s with
  | nil => exact start
  | cons j rest ih => exact ih (serves.kept s j start)

theorem Serves.bystander (serves : Serves tasks procs held run fixed exec) {visits : List κ}
    {s : σ} (start : fixed s) (distinct : visits.Nodup) {y : τ}
    (absent : ∀ i ∈ visits, held (procs s i) ≠ some y) :
    tasks (visits.foldl exec s) y = tasks s y := by
  induction visits generalizing s with
  | nil => rfl
  | cons j rest ih =>
      obtain ⟨fresh, distinct⟩ := List.nodup_cons.mp distinct
      have later : ∀ i ∈ rest, procs (exec s j) i = procs s i := by
        intro i member
        exact serves.other start fun same => fresh (same ▸ member)
      rw [List.foldl_cons, ih (serves.kept s j start) distinct]
      · cases here : held (procs s j) with
        | none => rw [serves.idle s j here]
        | some x =>
            have other : y ≠ x := by
              intro same
              subst y
              exact absent j (by simp) here
            rw [serves.task s j x start here, Function.update_of_ne other]
      · intro i member
        rw [later i member]
        exact absent i (by simp [member])

theorem Serves.served (serves : Serves tasks procs held run fixed exec) {visits : List κ}
    {s : σ} (start : fixed s) (distinct : visits.Nodup) {i : κ} {x : τ} (member : i ∈ visits)
    (here : held (procs s i) = some x)
    (alone : ∀ j ∈ visits, held (procs s j) = some x → j = i) :
    tasks (visits.foldl exec s) x = (run (tasks s x) (procs s i)).1 ∧
      procs (visits.foldl exec s) i = (run (tasks s x) (procs s i)).2 := by
  induction visits generalizing s with
  | nil => simp at member
  | cons j rest ih =>
      obtain ⟨fresh, nodup⟩ := List.nodup_cons.mp distinct
      have later : ∀ k ∈ rest, procs (exec s j) k = procs s k := by
        intro k inside
        exact serves.other start fun same => fresh (same ▸ inside)
      rw [List.foldl_cons]
      rcases List.mem_cons.mp member with same | inside
      · subst j
        constructor
        · rw [serves.bystander (serves.kept s i start) nodup]
          · rw [serves.task s i x start here, Function.update_self]
          · intro k inside
            rw [later k inside]
            intro twice
            have same := alone k (by simp [inside]) twice
            subst k
            exact fresh inside
        · rw [serves.untouched (serves.kept s i start) fresh,
            serves.proc s i x start here, Function.update_self]
      · have other : j ≠ i := by
          intro same
          subst j
          exact fresh inside
        have kept : tasks (exec s j) x = tasks s x := by
          cases busy : held (procs s j) with
          | none => rw [serves.idle s j busy]
          | some y =>
              have differ : x ≠ y := by
                intro same
                subst y
                exact other (alone j (by simp) busy)
              rw [serves.task s j y start busy, Function.update_of_ne differ]
        rw [← later i inside] at here ⊢
        rw [← kept]
        apply ih (serves.kept s j start) nodup inside here
        intro k member busy
        rw [later k member] at busy
        exact alone k (by simp [member]) busy

theorem card_filter_update [Fintype τ] (past : P → Prop) [DecidablePred past] (entry : τ → P) (x : τ)
    (value : P) (before : ¬ past (entry x)) :
    (Finset.univ.filter fun y => past (Function.update entry x value y)).card =
      (Finset.univ.filter fun y => past (entry y)).card + if past value then 1 else 0 := by
  by_cases last : past value
  · have more : (Finset.univ.filter fun y => past (Function.update entry x value y)) =
        insert x (Finset.univ.filter fun y => past (entry y)) := by
      ext y
      by_cases same : y = x
      · subst y
        simp [last]
      · simp [same]
    have fresh : x ∉ Finset.univ.filter fun y => past (entry y) := by simp [before]
    rw [more, Finset.card_insert_of_notMem fresh, if_pos last]
  · have same : (Finset.univ.filter fun y => past (Function.update entry x value y)) =
        Finset.univ.filter fun y => past (entry y) := by
      ext y
      by_cases same : y = x
      · subst y
        simp [last, before]
      · simp [same]
    rw [same, if_neg last, Nat.add_zero]

theorem Serves.counted [Fintype τ] (serves : Serves tasks procs held run fixed exec)
    (past : P → Prop) [DecidablePred past] (done : σ → ℤ)
    (idle : ∀ s i, held (procs s i) = none → done (exec s i) = done s)
    (counts : ∀ s i x, fixed s → held (procs s i) = some x → ¬ past (tasks s x) →
      done (exec s i) = done s + if past (run (tasks s x) (procs s i)).1 then 1 else 0)
    {visits : List κ} {s : σ} (start : fixed s) (distinct : visits.Nodup)
    (alone : ∀ i ∈ visits, ∀ j ∈ visits, ∀ x, held (procs s i) = some x →
      held (procs s j) = some x → i = j)
    (busy : ∀ i ∈ visits, ∀ x, held (procs s i) = some x → ¬ past (tasks s x)) :
    done (visits.foldl exec s) -
        (Finset.univ.filter fun x => past (tasks (visits.foldl exec s) x)).card =
      done s - (Finset.univ.filter fun x => past (tasks s x)).card := by
  induction visits generalizing s with
  | nil => rfl
  | cons j rest ih =>
      obtain ⟨fresh, distinct⟩ := List.nodup_cons.mp distinct
      have later : ∀ i ∈ rest, procs (exec s j) i = procs s i := by
        intro i member
        exact serves.other start fun same => fresh (same ▸ member)
      rw [List.foldl_cons, ih (serves.kept s j start) distinct]
      · cases here : held (procs s j) with
        | none => rw [idle s j here, serves.idle s j here]
        | some x =>
            have unfinished := busy j (by simp) x here
            rw [counts s j x start here unfinished, serves.task s j x start here,
              card_filter_update past _ x _ unfinished]
            split <;> omega
      · intro i member k inside x first second
        rw [later i member] at first
        rw [later k inside] at second
        exact alone i (by simp [member]) k (by simp [inside]) x first second
      · intro i member x first
        rw [later i member] at first
        have unfinished := busy i (by simp [member]) x first
        cases here : held (procs s j) with
        | none => rwa [serves.idle s j here]
        | some y =>
            have other : x ≠ y := by
              intro same
              subst y
              have equal := alone i (by simp [member]) j (by simp) x first here
              exact fresh (equal ▸ member)
            rwa [serves.task s j y start here, Function.update_of_ne other]

end Serve

/-! ### Cycles -/

/-- What is kept for each task: status, work left and cycle of completion. -/
structure Book (τ : Type*) where
  status : τ → Status
  left : τ → ℤ
  completion : τ → ℤ

variable {τ : Type*} {cpus : ℕ}

/-- A cycle at time `now`, in which the processors have the tasks of `row` and the statuses after
dispatching are `mid`. -/
structure Cycle (arrival : τ → ℤ) (now : ℤ) (b : Book τ) (row : Fin cpus → Option τ)
    (mid : τ → Status) (after : Book τ) : Prop where
  once : ∀ i j x, row i = some x → row j = some x → i = j
  running : ∀ x, mid x = .running ↔ ∃ i, row i = some x
  finished : ∀ x, mid x = .finished ↔ b.status x = .finished
  arrived : ∀ i x, row i = some x → arrival x ≤ now
  conserving : ∀ i, row i = none → ∀ x, mid x = .ready → now < arrival x
  left : ∀ x, after.left x = if mid x = .running then b.left x - 1 else b.left x
  status : ∀ x, after.status x = .finished ↔
    mid x = .finished ∨ mid x = .running ∧ b.left x = 1
  completion : ∀ x, after.completion x =
    if mid x = .running ∧ b.left x = 1 then now + 1 else b.completion x

structure Schedule (arrival burst : τ → ℤ) (books : ℕ → Book τ)
    (rows : ℕ → Fin cpus → Option τ) (mids : ℕ → τ → Status) : Prop where
  nonneg : ∀ x, 0 ≤ arrival x
  positive : ∀ x, 1 ≤ burst x
  status : ∀ x, (books 0).status x = .ready
  left : ∀ x, (books 0).left x = burst x
  cycle : ∀ t : ℕ, Cycle arrival t (books t) (rows t) (mids t) (books (t + 1))

namespace Schedule

variable {arrival burst : τ → ℤ} {books : ℕ → Book τ} {rows : ℕ → Fin cpus → Option τ}
  {mids : ℕ → τ → Status}

def served (mids : ℕ → τ → Status) (x : τ) (t : ℕ) : Finset ℕ :=
  (Finset.range t).filter fun u => mids u x = .running

/-- The cycles before `t` in which the task has arrived and waits. -/
def waited (arrival : τ → ℤ) (mids : ℕ → τ → Status) (x : τ) (t : ℕ) : Finset ℕ :=
  (Finset.range t).filter fun u => arrival x ≤ u ∧ mids u x = .ready

theorem served_succ (x : τ) (t : ℕ) : served mids x (t + 1) =
    if mids t x = .running then insert t (served mids x t) else served mids x t := by
  rw [served, Finset.range_add_one, Finset.filter_insert]
  rfl

theorem card_served_succ (mids : ℕ → τ → Status) (x : τ) (t : ℕ) : (served mids x (t + 1)).card =
    (served mids x t).card + if mids t x = .running then 1 else 0 := by
  rw [served_succ]
  split
  · exact Finset.card_insert_of_notMem (by simp [served])
  · rfl

theorem card_waited_succ (arrival : τ → ℤ) (mids : ℕ → τ → Status) (x : τ) (t : ℕ) :
    (waited arrival mids x (t + 1)).card =
      (waited arrival mids x t).card + if arrival x ≤ t ∧ mids t x = .ready then 1 else 0 := by
  rw [waited, Finset.range_add_one, Finset.filter_insert]
  split
  · rw [Finset.card_insert_of_notMem (by simp)]
    rfl
  · rfl

structure Kept (arrival burst : τ → ℤ) (b : Book τ) (mids : ℕ → τ → Status) (t : ℕ) (x : τ) :
    Prop where
  left : b.left x = burst x - (served mids x t).card
  unfinished : b.status x ≠ .finished → 1 ≤ b.left x
  finished : b.status x = .finished → b.left x = 0
  early : (t : ℤ) ≤ arrival x → (served mids x t).card = 0 ∧ (waited arrival mids x t).card = 0
  elapsed : b.status x ≠ .finished → arrival x ≤ t →
    (t : ℤ) = arrival x + (served mids x t).card + (waited arrival mids x t).card
  completed : b.status x = .finished → ∃ c : ℕ, b.completion x = c ∧ c ≤ t ∧
    (c : ℤ) = arrival x + burst x + (waited arrival mids x t).card ∧
      ∀ u, c ≤ u → u < t → mids u x = .finished

/-! ### The first cycle -/

/-- A task without a first cycle gets the current one when it has a processor. -/
structure Starts (starts : ℕ → τ → ℤ) (mids : ℕ → τ → Status) : Prop where
  zero : ∀ x, starts 0 x = -1
  succ : ∀ t x, starts (t + 1) x =
    if mids t x = .running ∧ starts t x = -1 then (t : ℤ) else starts t x

theorem Starts.first {starts : ℕ → τ → ℤ} (begin : Starts starts mids) (t : ℕ) (x : τ) :
    served mids x t = ∅ ∧ starts t x = -1 ∨
      ∃ first : ℕ, starts t x = first ∧ first ∈ served mids x t ∧
        ∀ u ∈ served mids x t, first ≤ u := by
  induction t with
  | zero => exact Or.inl ⟨by simp [served], begin.zero x⟩
  | succ t ih =>
      rw [served_succ, begin.succ]
      rcases ih with ⟨empty, unstarted⟩ | ⟨first, same, member, least⟩
      · by_cases running : mids t x = .running
        · right
          refine ⟨t, by simp [running, unstarted], by simp [running], ?_⟩
          intro u member
          simp only [running, if_true, empty, Finset.mem_insert, Finset.notMem_empty,
            or_false] at member
          omega
        · exact Or.inl ⟨by simp [running, empty], by simp [running, unstarted]⟩
      · right
        have before := Finset.mem_range.mp (Finset.mem_filter.mp member).1
        refine ⟨first, ?_, ?_, ?_⟩
        · rw [if_neg (by omega), same]
        · split
          · exact Finset.mem_insert_of_mem member
          · exact member
        · intro u inside
          split at inside
          · rcases Finset.mem_insert.mp inside with equal | earlier
            · omega
            · exact least u earlier
          · exact least u inside

/-! ### Service and waiting -/

theorem kept_zero (schedule : Schedule arrival burst books rows mids) (x : τ) :
    Kept arrival burst (books 0) mids 0 x := by
  have none : served mids x 0 = ∅ := by simp [served]
  have never : waited arrival mids x 0 = ∅ := by simp [waited]
  have ready := schedule.status x
  constructor
  · simp [none, schedule.left x]
  · intro _
    rw [schedule.left x]
    exact schedule.positive x
  · intro finished
    simp [ready] at finished
  · intro _
    simp [none, never]
  · intro _ arrived
    have nonneg := schedule.nonneg x
    rw [none, never, Finset.card_empty]
    omega
  · intro finished
    simp [ready] at finished

theorem unfinished_before (schedule : Schedule arrival burst books rows mids) {t : ℕ} {x : τ}
    (unfinished : mids t x ≠ .finished) : (books t).status x ≠ .finished :=
  fun finished => unfinished (((schedule.cycle t).finished x).mpr finished)

theorem kept_running (schedule : Schedule arrival burst books rows mids) {t : ℕ} {x : τ}
    (kept : Kept arrival burst (books t) mids t x) (mid : mids t x = .running) :
    Kept arrival burst (books (t + 1)) mids (t + 1) x := by
  have cycle := schedule.cycle t
  have served := card_served_succ mids x t
  have waited := card_waited_succ arrival mids x t
  have left := cycle.left x
  have status := cycle.status x
  have completion := cycle.completion x
  obtain ⟨i, here⟩ := (cycle.running x).mp mid
  have arrived := cycle.arrived i x here
  have going : (books t).status x ≠ .finished := schedule.unfinished_before (by simp [mid])
  have elapsed := kept.elapsed going arrived
  have work := kept.left
  have some := kept.unfinished going
  simp only [mid, if_true, true_and, reduceCtorEq, false_or, and_false, if_false,
    Nat.add_zero] at served waited left status completion
  constructor
  · omega
  · intro unfinished
    rw [ne_eq, status] at unfinished
    omega
  · intro finished
    rw [status] at finished
    omega
  · intro early
    push_cast at early
    omega
  · intro _ _
    push_cast
    omega
  · intro finished
    rw [status] at finished
    rw [if_pos finished] at completion
    refine ⟨t + 1, by simpa using completion, le_rfl, by push_cast; omega, ?_⟩
    intro u lower upper
    omega

theorem kept_ready (schedule : Schedule arrival burst books rows mids) {t : ℕ} {x : τ}
    (kept : Kept arrival burst (books t) mids t x) (mid : mids t x = .ready) :
    Kept arrival burst (books (t + 1)) mids (t + 1) x := by
  have cycle := schedule.cycle t
  have served := card_served_succ mids x t
  have waited := card_waited_succ arrival mids x t
  have left := cycle.left x
  have completion := cycle.completion x
  have going : (books t).status x ≠ .finished := schedule.unfinished_before (by simp [mid])
  have still : (books (t + 1)).status x ≠ .finished := by
    rw [ne_eq, cycle.status, mid]
    simp
  simp only [mid, reduceCtorEq, false_and, if_false, and_true, Nat.add_zero]
    at served waited left completion
  constructor
  · rw [served, left]
    exact kept.left
  · intro _
    rw [left]
    exact kept.unfinished going
  · intro finished
    exact absurd finished still
  · intro early
    push_cast at early
    obtain ⟨none, never⟩ := kept.early (by omega)
    rw [if_neg (by omega)] at waited
    omega
  · intro _ arrived
    push_cast at arrived ⊢
    by_cases before : arrival x ≤ t
    · have elapsed := kept.elapsed going before
      rw [if_pos before] at waited
      omega
    · obtain ⟨none, never⟩ := kept.early (by omega)
      rw [if_neg before] at waited
      omega
  · intro finished
    exact absurd finished still

theorem kept_finished (schedule : Schedule arrival burst books rows mids) {t : ℕ} {x : τ}
    (kept : Kept arrival burst (books t) mids t x) (mid : mids t x = .finished) :
    Kept arrival burst (books (t + 1)) mids (t + 1) x := by
  have cycle := schedule.cycle t
  have served := card_served_succ mids x t
  have waited := card_waited_succ arrival mids x t
  have left := cycle.left x
  have completion := cycle.completion x
  have done := (cycle.finished x).mp mid
  have still : (books (t + 1)).status x = .finished := (cycle.status x).mpr (Or.inl mid)
  simp only [mid, reduceCtorEq, false_and, and_false, if_false, Nat.add_zero]
    at served waited left completion
  constructor
  · rw [served, left]
    exact kept.left
  · intro unfinished
    exact absurd still unfinished
  · intro _
    rw [left]
    exact kept.finished done
  · intro early
    push_cast at early
    obtain ⟨none, never⟩ := kept.early (by omega)
    omega
  · intro unfinished
    exact absurd still unfinished
  · intro _
    obtain ⟨c, same, bound, total, after⟩ := kept.completed done
    refine ⟨c, completion.trans same, by omega, by rw [waited]; exact total, ?_⟩
    intro u lower upper
    by_cases now : u = t
    · subst u
      exact mid
    · exact after u lower (by omega)

theorem kept_succ (schedule : Schedule arrival burst books rows mids) {t : ℕ} {x : τ}
    (kept : Kept arrival burst (books t) mids t x) :
    Kept arrival burst (books (t + 1)) mids (t + 1) x := by
  cases mid : mids t x with
  | running => exact schedule.kept_running kept mid
  | ready => exact schedule.kept_ready kept mid
  | finished => exact schedule.kept_finished kept mid

theorem kept_all (schedule : Schedule arrival burst books rows mids) (t : ℕ) (x : τ) :
    Kept arrival burst (books t) mids t x := by
  induction t with
  | zero => exact schedule.kept_zero x
  | succ t ih => exact schedule.kept_succ ih

/-! ### The end of a run -/

/-- The end values of a task that has finished by `T` say what happened to it. -/
structure Accounted (arrival burst : τ → ℤ) (b : Book τ) (mids : ℕ → τ → Status) (T : ℕ) (x : τ) :
    Prop where
  served : ((served mids x T).card : ℤ) = burst x
  waiting : b.completion x - arrival x - burst x = ((Finset.range T).filter fun u : ℕ =>
    arrival x ≤ u ∧ (u : ℤ) < b.completion x ∧ mids u x = .ready).card

theorem accounted (schedule : Schedule arrival burst books rows mids) {T : ℕ} {x : τ}
    (finished : (books T).status x = .finished) : Accounted arrival burst (books T) mids T x := by
  have kept := schedule.kept_all T x
  have left := kept.left
  have none := kept.finished finished
  have positive := schedule.positive x
  obtain ⟨c, same, bound, total, after⟩ := kept.completed finished
  have cut : ((Finset.range T).filter fun u : ℕ =>
      arrival x ≤ u ∧ (u : ℤ) < (books T).completion x ∧ mids u x = .ready) =
      waited arrival mids x T := by
    ext u
    simp only [waited, Finset.mem_filter, Finset.mem_range, same]
    constructor
    · rintro ⟨before, arrived, -, ready⟩
      exact ⟨before, arrived, ready⟩
    · rintro ⟨before, arrived, ready⟩
      refine ⟨before, arrived, ?_, ready⟩
      by_contra late
      have past := after u (by omega) before
      rw [ready] at past
      simp at past
  constructor
  · omega
  · rw [cut, same]
    omega

theorem ends [Fintype τ] (schedule : Schedule arrival burst books rows mids) (some : 0 < cpus) :
    ∃ T, ∀ x, (books T).status x = .finished := by
  obtain ⟨last, bound⟩ : ∃ last : ℕ, ∀ x, arrival x ≤ last := by
    refine ⟨∑ x, (arrival x).toNat, fun x => ?_⟩
    have least : (arrival x).toNat ≤ ∑ y, (arrival y).toNat :=
      Finset.single_le_sum (f := fun y => (arrival y).toNat) (fun _ _ => Nat.zero_le _)
        (Finset.mem_univ x)
    omega
  let measure : ℕ → ℕ := fun t => ∑ x, ((books t).left x).toNat + (last - t)
  have falls : ∀ t, (∃ x, (books t).status x ≠ .finished) → measure (t + 1) < measure t := by
    intro t ⟨x, unfinished⟩
    have cycle := schedule.cycle t
    have less : ∀ y, ((books (t + 1)).left y).toNat ≤ ((books t).left y).toNat := by
      intro y
      rw [cycle.left y]
      split <;> omega
    have total : ∑ y, ((books (t + 1)).left y).toNat ≤ ∑ y, ((books t).left y).toNat :=
      Finset.sum_le_sum fun y _ => less y
    by_cases early : t < last
    · simp only [measure]
      omega
    · -- everybody has arrived, and somebody has a processor
      have busy : ∃ y, mids t y = .running := by
        cases mid : mids t x with
        | running => exact ⟨x, mid⟩
        | finished => exact absurd ((cycle.finished x).mp mid) unfinished
        | ready =>
            cases first : rows t ⟨0, some⟩ with
            | none =>
                have late := cycle.conserving _ first x mid
                have here := bound x
                omega
            | some y => exact ⟨y, (cycle.running y).mpr ⟨_, first⟩⟩
      obtain ⟨y, running⟩ := busy
      have going : (books t).status y ≠ .finished := by
        intro finished
        rw [(cycle.finished y).mpr finished] at running
        simp at running
      have work := (schedule.kept_all t y).unfinished going
      have strict : ∑ y, ((books (t + 1)).left y).toNat < ∑ y, ((books t).left y).toNat := by
        apply Finset.sum_lt_sum (fun y _ => less y)
        refine ⟨y, Finset.mem_univ y, ?_⟩
        rw [cycle.left y, if_pos running]
        omega
      simp only [measure]
      omega
  by_contra never
  push Not at never
  have drops : ∀ t, measure t + t ≤ measure 0 := by
    intro t
    induction t with
    | zero => simp
    | succ t ih =>
        have step := falls t (never t)
        omega
  have far := drops (measure 0 + 1)
  omega

end Schedule

end OsLab.Library
