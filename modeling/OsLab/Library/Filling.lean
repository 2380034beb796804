import OsLab.Library.Multiprocessor
import Mathlib.Data.Finset.Card

/-!
Dispatching without preemption. A pass over the processors gives each idle one the waiting
task with the least key and leaves the busy ones alone. How far such a pass gets depends only
on how many processors are idle.
-/

namespace OsLab.Library.Machine

variable {τ : Type*} {cpus : ℕ} [DecidableEq τ] {arrived : τ → Prop} {key : τ → ℤ}
  {m after : Machine τ cpus} {visits : List (Fin cpus)}

inductive Fill (arrived : τ → Prop) (key : τ → ℤ) :
    List (Fin cpus) → Machine τ cpus → Machine τ cpus → Prop
  | nil (machine) : Fill arrived key [] machine machine
  | keep {i rest before last} :
      (before.current i = none → ∀ y, ¬ before.Waiting arrived y) →
      Fill arrived key rest before last → Fill arrived key (i :: rest) before last
  | take {i b rest before last} : before.current i = none → before.Waiting arrived b →
      (∀ y, before.Waiting arrived y → key b ≤ key y) →
      Fill arrived key rest (before.put i b) last → Fill arrived key (i :: rest) before last

theorem put_waiting_idle {i : Fin cpus} {b y : τ} (idle : m.current i = none) :
    (m.put i b).Waiting arrived y ↔ y ≠ b ∧ m.Waiting arrived y := by
  by_cases same : y = b
  · subst y
    simp [put, Waiting]
  · simp [put, Waiting, same, idle]

/-! ### What a pass leaves alone -/

theorem Fill.waiting (fill : Fill arrived key visits m after) {y : τ}
    (waits : after.Waiting arrived y) : m.Waiting arrived y := by
  induction fill with
  | nil _ => exact waits
  | keep _ _ ih => exact ih waits
  | take idle _ _ _ ih => exact ((put_waiting_idle idle).mp (ih waits)).2

theorem Fill.kept (fill : Fill arrived key visits m after) {i : Fin cpus} {x : τ}
    (here : m.current i = some x) : after.current i = some x := by
  induction fill with
  | nil _ => exact here
  | keep _ _ ih => exact ih here
  | @take j b rest m after idle _ _ _ ih =>
      apply ih
      have other : i ≠ j := by
        intro same
        subst j
        simp [idle] at here
      simpa [put, other] using here

theorem Fill.placed {here : τ → Prop} (fill : Fill arrived key visits m after)
    (within : ∀ x, arrived x → here x) (placed : m.Placed here) : after.Placed here := by
  induction fill with
  | nil _ => exact placed
  | keep _ _ ih => exact ih placed
  | take _ waits _ _ ih => exact ih (put_placed placed _ ⟨waits.1, within _ waits.2⟩)

theorem Fill.finished (fill : Fill arrived key visits m after) (x : τ) :
    after.status x = .finished ↔ m.status x = .finished := by
  induction fill with
  | nil _ => rfl
  | keep _ _ ih => exact ih
  | @take i b rest m after idle waits _ _ ih =>
      rw [ih]
      by_cases same : x = b
      · subst x
        simp [put, waits.1]
      · simp [put, same, idle]

theorem Placed.serve (placed : m.Placed arrived) {i : Fin cpus} {x : τ}
    (here : m.current i = some x) (home : after.home = m.home)
    (others : ∀ y, y ≠ x → after.status y = m.status y)
    (elsewhere : ∀ j, j ≠ i → after.current j = m.current j)
    (result : after.status x = .running ∧ after.current i = some x ∨
      after.status x ≠ .running ∧ after.current i = none) : after.Placed arrived := by
  have busy := placed.busy i x here
  constructor
  · intro j y there
    by_cases same : j = i
    · subst j
      rcases result with ⟨running, kept⟩ | ⟨-, gone⟩
      · rw [kept, Option.some.injEq] at there
        subst y
        exact ⟨running, by rw [home, busy.2.1], busy.2.2⟩
      · simp [gone] at there
    · rw [elsewhere j same] at there
      have other : y ≠ x := by
        intro equal
        subst y
        exact same (placed.once there here)
      rw [others y other, home]
      exact placed.busy j y there
  · intro y running
    by_cases same : y = x
    · subst y
      rcases result with ⟨-, kept⟩ | ⟨stopped, -⟩
      · exact ⟨i, kept⟩
      · exact absurd running stopped
    · rw [others y same] at running
      obtain ⟨j, there⟩ := placed.held y running
      refine ⟨j, ?_⟩
      rw [elsewhere j]
      · exact there
      · intro equal
        subst j
        rw [here, Option.some.injEq] at there
        exact same there.symm

/-! ### Who is taken -/

theorem Fill.taken (fill : Fill arrived key visits m after) {i : Fin cpus} {x : τ}
    (idle : m.current i = none) (here : after.current i = some x) :
    m.Waiting arrived x ∧ ¬ after.Waiting arrived x ∧
      ∀ y, after.Waiting arrived y → key x ≤ key y := by
  induction fill with
  | nil _ => simp [idle] at here
  | keep _ _ ih => exact ih idle here
  | @take j b rest m after free waits least fill ih =>
      by_cases same : i = j
      · subst j
        have given := fill.kept (i := i) (x := b) (by simp [put])
        rw [given, Option.some.injEq] at here
        subst x
        refine ⟨waits, ?_, ?_⟩
        · intro still
          exact ((put_waiting_idle free).mp (fill.waiting still)).1 rfl
        · intro y still
          exact least y ((put_waiting_idle free).mp (fill.waiting still)).2
      · obtain ⟨before, gone, first⟩ := ih (by simpa [put, same] using idle) here
        exact ⟨((put_waiting_idle free).mp before).2, gone, first⟩

theorem Fill.given (fill : Fill arrived key visits m after) {x : τ} (waits : m.Waiting arrived x)
    (gone : ¬ after.Waiting arrived x) :
    ∃ i, m.current i = none ∧ after.current i = some x := by
  induction fill with
  | nil _ => exact absurd waits gone
  | keep _ _ ih => exact ih waits gone
  | @take j b rest m after free _ _ fill ih =>
      by_cases same : x = b
      · subst x
        exact ⟨j, free, fill.kept (by simp [put])⟩
      · obtain ⟨i, idle, here⟩ := ih ((put_waiting_idle free).mpr ⟨same, waits⟩) gone
        refine ⟨i, ?_, here⟩
        by_cases equal : i = j
        · rw [equal]
          exact free
        · simpa [put, equal] using idle

theorem Fill.conserving (fill : Fill arrived key visits m after) {i : Fin cpus}
    (visited : i ∈ visits) (idle : after.current i = none) (y : τ) :
    ¬ after.Waiting arrived y := by
  induction fill with
  | nil _ => simp at visited
  | @keep j rest m after nobody fill ih =>
      rcases List.mem_cons.mp visited with same | later
      · subst j
        intro waits
        cases here : m.current i with
        | none => exact nobody here y (fill.waiting waits)
        | some x =>
            rw [fill.kept here] at idle
            simp at idle
      · exact ih later idle
  | @take j b rest m after free _ _ fill ih =>
      rcases List.mem_cons.mp visited with same | later
      · subst j
        rw [fill.kept (i := i) (x := b) (by simp [put])] at idle
        simp at idle
      · exact ih later idle

/-! ### How many are taken -/

section Count

variable [Fintype τ] [DecidablePred arrived]

def queue (arrived : τ → Prop) [DecidablePred arrived] (m : Machine τ cpus) : Finset τ :=
  Finset.univ.filter fun x => m.status x = .ready ∧ arrived x

def idle (m : Machine τ cpus) : Finset (Fin cpus) :=
  Finset.univ.filter fun i => m.current i = none

omit [DecidableEq τ] in
@[simp] theorem mem_queue {x : τ} : x ∈ m.queue arrived ↔ m.Waiting arrived x := by
  simp [queue, Waiting]

omit [DecidableEq τ] [Fintype τ] in
@[simp] theorem mem_idle {i : Fin cpus} : i ∈ m.idle ↔ m.current i = none := by
  simp [idle]

theorem Fill.count (fill : Fill arrived key visits m after) :
    (m.queue arrived).card + after.idle.card = (after.queue arrived).card + m.idle.card := by
  induction fill with
  | nil _ => rfl
  | keep _ _ ih => exact ih
  | @take i b rest m after free waits _ _ ih =>
      have fewer : (m.put i b).queue arrived = (m.queue arrived).erase b := by
        ext y
        simp [put_waiting_idle free]
      have busier : (m.put i b).idle = m.idle.erase i := by
        ext j
        by_cases same : j = i
        · subst j
          simp [put]
        · simp [put, same]
      have one := Finset.card_erase_add_one (mem_queue.mpr waits)
      have other := Finset.card_erase_add_one (mem_idle.mpr free)
      rw [fewer, busier] at ih
      omega

/-- The tasks that wait and would be taken before `x`. -/
def ahead (arrived : τ → Prop) [DecidablePred arrived] (key : τ → ℤ) (m : Machine τ cpus) (x : τ) :
    Finset τ :=
  (m.queue arrived).filter fun y => key y < key x

theorem Fill.card_taken (fill : Fill arrived key visits m after) :
    (m.queue arrived \ after.queue arrived).card + after.idle.card = m.idle.card := by
  have within : after.queue arrived ⊆ m.queue arrived := by
    intro y waits
    exact mem_queue.mpr (fill.waiting (mem_queue.mp waits))
  have parts := Finset.card_sdiff_add_card_eq_card within
  have count := fill.count
  omega

theorem Fill.mem_taken (fill : Fill arrived key visits m after) {x : τ}
    (member : x ∈ m.queue arrived \ after.queue arrived) {y : τ}
    (waits : after.Waiting arrived y) : key x ≤ key y := by
  simp only [Finset.mem_sdiff, mem_queue] at member
  obtain ⟨i, free, here⟩ := fill.given member.1 member.2
  exact (fill.taken free here).2.2 y waits

omit [Fintype τ] [DecidablePred arrived] in
theorem Fill.full (fill : Fill arrived key (List.finRange cpus) m after) {y : τ}
    (waits : after.Waiting arrived y) : after.idle.card = 0 := by
  rw [Finset.card_eq_zero, Finset.eq_empty_iff_forall_notMem]
  intro i idle
  exact fill.conserving (List.mem_finRange i) (mem_idle.mp idle) y waits

/-- With distinct keys a task is taken exactly when fewer tasks are ahead of it than there are
idle processors. -/
theorem Fill.taken_iff (fill : Fill arrived key (List.finRange cpus) m after)
    (injective : Function.Injective key) {x : τ} (waits : m.Waiting arrived x) :
    ¬ after.Waiting arrived x ↔ (m.ahead arrived key x).card < m.idle.card := by
  have total := fill.card_taken
  constructor
  · intro gone
    have member : x ∈ m.queue arrived \ after.queue arrived := by simp [waits, gone]
    have within : insert x (m.ahead arrived key x) ⊆ m.queue arrived \ after.queue arrived := by
      intro y inside
      rcases Finset.mem_insert.mp inside with same | less
      · rw [same]
        exact member
      · obtain ⟨queued, less⟩ := Finset.mem_filter.mp less
        refine Finset.mem_sdiff.mpr ⟨queued, ?_⟩
        intro still
        have bound := fill.mem_taken member (mem_queue.mp still)
        omega
    have fresh : x ∉ m.ahead arrived key x := by simp [ahead]
    have less := Finset.card_le_card within
    rw [Finset.card_insert_of_notMem fresh] at less
    omega
  · intro few still
    have full := fill.full still
    have within : m.queue arrived \ after.queue arrived ⊆ m.ahead arrived key x := by
      intro y inside
      have bound := fill.mem_taken inside still
      have parts := Finset.mem_sdiff.mp inside
      refine Finset.mem_filter.mpr ⟨parts.1, lt_of_le_of_ne bound ?_⟩
      intro same
      rw [injective same] at parts
      exact parts.2 (mem_queue.mpr still)
    have less := Finset.card_le_card within
    omega

/-- The keys on the processors come before those that still wait exactly when, for each
processor that was busy, the idle ones suffice for all that come before its task. -/
theorem Fill.ordered_iff (fill : Fill arrived key (List.finRange cpus) m after) :
    (∀ i x, after.current i = some x → ∀ y, after.Waiting arrived y → key x ≤ key y) ↔
      ∀ i x, m.current i = some x → (m.ahead arrived key x).card ≤ m.idle.card := by
  have total := fill.card_taken
  constructor
  · intro ordered i x here
    by_contra many
    have more : ∃ y ∈ m.ahead arrived key x, y ∉ m.queue arrived \ after.queue arrived := by
      by_contra none
      push Not at none
      have less := Finset.card_le_card (show m.ahead arrived key x ⊆ _ from none)
      omega
    obtain ⟨y, member, left⟩ := more
    obtain ⟨queued, less⟩ := Finset.mem_filter.mp member
    simp only [Finset.mem_sdiff, not_and, not_not] at left
    have bound := ordered i x (fill.kept here) y (mem_queue.mp (left queued))
    omega
  · intro few i x here y waits
    cases before : m.current i with
    | none => exact (fill.taken before here).2.2 y waits
    | some z =>
        rw [fill.kept before, Option.some.injEq] at here
        subst z
        by_contra less
        have full := fill.full waits
        have within : insert y (m.queue arrived \ after.queue arrived) ⊆
            m.ahead arrived key x := by
          intro z inside
          rcases Finset.mem_insert.mp inside with same | member
          · subst z
            exact Finset.mem_filter.mpr ⟨mem_queue.mpr (fill.waiting waits), by omega⟩
          · have bound := fill.mem_taken member waits
            exact Finset.mem_filter.mpr ⟨(Finset.mem_sdiff.mp member).1, by omega⟩
        have fresh : y ∉ m.queue arrived \ after.queue arrived := by simp [waits]
        have less := Finset.card_le_card within
        rw [Finset.card_insert_of_notMem fresh] at less
        have bound := few i x before
        omega

end Count

end OsLab.Library.Machine
