import Mathlib.Data.Fintype.Card
import Mathlib.Data.Int.Order.Basic
import Mathlib.Data.List.FinRange
import Mathlib.Tactic.Common

/-!
Tasks dispatched on several processors by a key. A pass over the processors in any
order, which at each one takes the waiting task with the least key if the processor is
idle or runs a task with a greater key, ends with the least keys running.
-/

namespace OsLab.Library

inductive Status
  | ready
  | running
  | finished
  deriving DecidableEq, Repr

/-- The status of each task, the processor it was given last and the task of each processor. -/
structure Machine (τ : Type*) (cpus : ℕ) where
  status : τ → Status
  home : τ → ℤ
  current : Fin cpus → Option τ

namespace Machine

variable {τ : Type*} {cpus : ℕ} {m after : Machine τ cpus}

def Waiting (arrived : τ → Prop) (m : Machine τ cpus) (x : τ) : Prop :=
  m.status x = .ready ∧ arrived x

structure Placed (arrived : τ → Prop) (m : Machine τ cpus) : Prop where
  busy : ∀ i x, m.current i = some x → m.status x = .running ∧ m.home x = i ∧ arrived x
  held : ∀ x, m.status x = .running → ∃ i, m.current i = some x

variable {arrived : τ → Prop}

theorem Placed.once (placed : m.Placed arrived) {i j : Fin cpus} {x : τ}
    (first : m.current i = some x) (second : m.current j = some x) : i = j := by
  have left := (placed.busy i x first).2.1
  have right := (placed.busy j x second).2.1
  apply Fin.ext
  omega

structure Dispatched (arrived : τ → Prop) (key : τ → ℤ) (m : Machine τ cpus) : Prop where
  placed : m.Placed arrived
  conserving : ∀ i, m.current i = none → ∀ y, ¬ m.Waiting arrived y
  urgent : ∀ x y, m.status x = .running → m.Waiting arrived y → key x ≤ key y

section Count

variable [Fintype τ]

theorem Dispatched.card_running {key : τ → ℤ} [DecidableEq τ] [DecidablePred arrived]
    (dispatched : m.Dispatched arrived key) :
    (Finset.univ.filter fun x => m.status x = .running).card =
      min cpus (Finset.univ.filter fun x => arrived x ∧ m.status x ≠ .finished).card := by
  have placed := dispatched.placed
  have within : (Finset.univ.filter fun x => m.status x = .running) ⊆
      Finset.univ.filter fun x => arrived x ∧ m.status x ≠ .finished := by
    intro x member
    have running := (Finset.mem_filter.mp member).2
    obtain ⟨i, here⟩ := placed.held x running
    simp [(placed.busy i x here).2.2, running]
  have less := Finset.card_le_card within
  -- each running task has a processor of its own
  have fewer : (Finset.univ.filter fun x => m.status x = .running).card ≤ cpus := by
    have image : (Finset.univ.filter fun x => m.status x = .running).image some ⊆
        Finset.univ.image m.current := by
      intro option member
      obtain ⟨x, running, same⟩ := Finset.mem_image.mp member
      subst option
      obtain ⟨i, here⟩ := placed.held x (Finset.mem_filter.mp running).2
      exact Finset.mem_image.mpr ⟨i, Finset.mem_univ i, here⟩
    calc
      (Finset.univ.filter fun x => m.status x = .running).card
          = ((Finset.univ.filter fun x => m.status x = .running).image some).card :=
        (Finset.card_image_of_injective _ (Option.some_injective τ)).symm
      _ ≤ (Finset.univ.image m.current).card := Finset.card_le_card image
      _ ≤ (Finset.univ : Finset (Fin cpus)).card := Finset.card_image_le
      _ = cpus := Finset.card_fin cpus
  by_cases idle : ∃ i, m.current i = none
  · obtain ⟨i, none⟩ := idle
    have all : (Finset.univ.filter fun x => arrived x ∧ m.status x ≠ .finished) ⊆
        Finset.univ.filter fun x => m.status x = .running := by
      intro x member
      obtain ⟨here, unfinished⟩ := (Finset.mem_filter.mp member).2
      have waiting := dispatched.conserving i none x
      simp only [Finset.mem_filter, Finset.mem_univ, true_and]
      cases status : m.status x with
      | ready => exact absurd ⟨status, here⟩ waiting
      | running => rfl
      | finished => exact absurd status unfinished
    have more := Finset.card_le_card all
    omega
  · have full : ∀ i, ∃ x, m.current i = some x := by
      intro i
      cases here : m.current i with
      | none => exact absurd ⟨i, here⟩ idle
      | some x => exact ⟨x, rfl⟩
    choose task here using full
    have injective : Function.Injective task := by
      intro i j same
      apply placed.once (here i)
      rw [same]
      exact here j
    have image : Finset.univ.image task ⊆ Finset.univ.filter fun x => m.status x = .running := by
      intro x member
      obtain ⟨i, -, same⟩ := Finset.mem_image.mp member
      subst x
      simp [(placed.busy i _ (here i)).1]
    have more := Finset.card_le_card image
    rw [Finset.card_image_of_injective _ injective, Finset.card_fin] at more
    omega

end Count

/-! ### One pass over the processors -/

variable [DecidableEq τ] {key : τ → ℤ}

/-- The processor is given the task, and the task it had waits again. -/
def put (m : Machine τ cpus) (i : Fin cpus) (b : τ) : Machine τ cpus where
  status y := if y = b then .running else if m.current i = some y then .ready else m.status y
  home := Function.update m.home b i
  current := Function.update m.current i (some b)

inductive Visit (arrived : τ → Prop) (key : τ → ℤ) (i : Fin cpus) (m : Machine τ cpus) :
    Machine τ cpus → Prop
  | rest : (∀ y, ¬ m.Waiting arrived y) → Visit arrived key i m m
  | keep {x} : m.current i = some x → (∀ y, m.Waiting arrived y → key x ≤ key y) →
      Visit arrived key i m m
  | take {b} : m.Waiting arrived b → (∀ y, m.Waiting arrived y → key b ≤ key y) →
      (∀ x, m.current i = some x → key b < key x) → Visit arrived key i m (m.put i b)

inductive Pass (arrived : τ → Prop) (key : τ → ℤ) :
    List (Fin cpus) → Machine τ cpus → Machine τ cpus → Prop
  | nil (machine) : Pass arrived key [] machine machine
  | cons {i rest before middle later} : Visit arrived key i before middle →
      Pass arrived key rest middle later → Pass arrived key (i :: rest) before later

/-- No waiting task would be taken at processor `i`. -/
structure Settled (arrived : τ → Prop) (key : τ → ℤ) (i : Fin cpus) (m : Machine τ cpus) :
    Prop where
  idle : m.current i = none → ∀ y, ¬ m.Waiting arrived y
  least : ∀ x, m.current i = some x → ∀ y, m.Waiting arrived y → key x ≤ key y

theorem put_waiting {i : Fin cpus} {b y : τ} (waiting : (m.put i b).Waiting arrived y) :
    y ≠ b ∧ (m.current i = some y ∨ m.Waiting arrived y) := by
  obtain ⟨status, here⟩ := waiting
  simp only [put] at status
  split at status
  · simp at status
  · rename_i other
    refine ⟨other, ?_⟩
    split at status
    · rename_i same
      exact Or.inl same
    · exact Or.inr ⟨status, here⟩

theorem put_placed (placed : m.Placed arrived) (i : Fin cpus) {b : τ}
    (waiting : m.Waiting arrived b) : (m.put i b).Placed arrived := by
  have absent : ∀ j, m.current j ≠ some b := by
    intro j here
    have running := (placed.busy j b here).1
    rw [waiting.1] at running
    simp at running
  constructor
  · intro j x here
    by_cases same : j = i
    · subst j
      simp only [put, Function.update_self, Option.some.injEq] at here
      subst x
      simp [put, waiting.2]
    · simp only [put, Function.update_of_ne same] at here
      have busy := placed.busy j x here
      have other : x ≠ b := by
        intro equal
        subst x
        exact absent j here
      have kept : m.current i ≠ some x := by
        intro twice
        exact same (placed.once here twice)
      simpa [put, other, kept] using busy
  · intro x running
    simp only [put] at running ⊢
    split at running
    · rename_i same
      subst x
      exact ⟨i, by simp⟩
    · split at running
      · simp at running
      · rename_i kept
        obtain ⟨j, here⟩ := placed.held x running
        have differ : j ≠ i := by
          intro same
          subst j
          exact kept here
        exact ⟨j, by simpa [differ] using here⟩

theorem put_finished (placed : m.Placed arrived) (i : Fin cpus) {b : τ}
    (waiting : m.Waiting arrived b) (x : τ) :
    (m.put i b).status x = .finished ↔ m.status x = .finished := by
  simp only [put]
  split
  · rename_i same
    subst x
    simp [waiting.1]
  · split
    · rename_i here
      simp [(placed.busy i x here).1]
    · rfl

theorem Visit.placed {i : Fin cpus} (visit : Visit arrived key i m after)
    (placed : m.Placed arrived) : after.Placed arrived := by
  cases visit with
  | rest _ => exact placed
  | keep _ _ => exact placed
  | take waiting _ _ => exact put_placed placed i waiting

theorem Visit.settled {i : Fin cpus} (visit : Visit arrived key i m after) :
    after.Settled arrived key i := by
  cases visit with
  | rest none => exact ⟨fun _ => none, fun _ _ y waiting => absurd waiting (none y)⟩
  | @keep x here least =>
      constructor
      · intro none
        simp [none] at here
      · intro x' here' y waiting
        rw [here, Option.some.injEq] at here'
        subst x'
        exact least y waiting
  | @take b waiting least greater =>
      constructor
      · intro none
        simp [put] at none
      · intro x here y waiting'
        simp only [put, Function.update_self, Option.some.injEq] at here
        subst x
        rcases (put_waiting waiting').2 with displaced | before
        · have less := greater y displaced
          omega
        · exact least y before

/-- Later visits leave a settled processor settled: the least waiting key only grows. -/
theorem Visit.settled_other {i j : Fin cpus} (visit : Visit arrived key i m after)
    (other : j ≠ i) (settled : m.Settled arrived key j) : after.Settled arrived key j := by
  cases visit with
  | rest _ => exact settled
  | keep _ _ => exact settled
  | @take b waiting _ greater =>
      have same : (m.put i b).current j = m.current j := by simp [put, other]
      constructor
      · intro none
        rw [same] at none
        exact absurd waiting (settled.idle none b)
      · intro x here y waiting'
        rw [same] at here
        have bound := settled.least x here
        rcases (put_waiting waiting').2 with displaced | before
        · have lower := bound b waiting
          have less := greater y displaced
          omega
        · exact bound y before

theorem Pass.settled {visits : List (Fin cpus)} (pass : Pass arrived key visits m after)
    (placed : m.Placed arrived) (done : ∀ i, i ∉ visits → m.Settled arrived key i) :
    after.Placed arrived ∧ ∀ i, after.Settled arrived key i := by
  induction pass with
  | nil _ => exact ⟨placed, fun i => done i (by simp)⟩
  | @cons i rest m middle after visit _ ih =>
      apply ih (visit.placed placed)
      intro j outside
      by_cases same : j = i
      · subst j
        exact visit.settled
      · apply visit.settled_other same
        apply done
        simp [same, outside]

theorem Pass.dispatched (pass : Pass arrived key (List.finRange cpus) m after)
    (placed : m.Placed arrived) : after.Dispatched arrived key := by
  obtain ⟨placed, settled⟩ := pass.settled placed fun i outside =>
    absurd (List.mem_finRange i) outside
  refine ⟨placed, fun i => (settled i).idle, ?_⟩
  intro x y running waiting
  obtain ⟨i, here⟩ := placed.held x running
  exact (settled i).least x here y waiting

theorem Pass.finished {visits : List (Fin cpus)} (pass : Pass arrived key visits m after)
    (placed : m.Placed arrived) (x : τ) :
    after.status x = .finished ↔ m.status x = .finished := by
  induction pass with
  | nil _ => rfl
  | @cons i rest m middle after visit _ ih =>
      rw [ih (visit.placed placed)]
      cases visit with
      | rest _ => rfl
      | keep _ _ => rfl
      | take waiting _ _ => exact put_finished placed i waiting x

/-! ### One offer for each waiting task -/

/-- A waiting task goes to an idle processor, or else in the place of a running task with the
greatest key when that is greater than its own. -/
inductive Offer (key : τ → ℤ) (b : τ) (m : Machine τ cpus) : Machine τ cpus → Prop
  | idle {i} : m.current i = none → Offer key b m (m.put i b)
  | preempt {i x} : m.current i = some x → (∀ j, ∃ y, m.current j = some y ∧ key y ≤ key x) →
      key b < key x → Offer key b m (m.put i b)
  | refuse {x} : (∃ i, m.current i = some x) →
      (∀ j, ∃ y, m.current j = some y ∧ key y ≤ key x) → key x ≤ key b → Offer key b m m

inductive Offers (key : τ → ℤ) : List τ → Machine τ cpus → Machine τ cpus → Prop
  | nil (machine) : Offers key [] machine machine
  | cons {b rest before middle later} : Offer key b before middle →
      Offers key rest middle later → Offers key (b :: rest) before later

/-- Every processor runs a task that comes before the waiting one. -/
def Outranked (key : τ → ℤ) (m : Machine τ cpus) (y : τ) : Prop :=
  ∀ j, ∃ x, m.current j = some x ∧ key x ≤ key y

structure Offering (arrived : τ → Prop) (key : τ → ℤ) (offered : List τ) (m : Machine τ cpus) :
    Prop where
  placed : m.Placed arrived
  distinct : offered.Nodup
  waiting : ∀ y ∈ offered, m.Waiting arrived y
  others : ∀ y, m.Waiting arrived y → y ∈ offered ∨ m.Outranked key y

omit [DecidableEq τ] in
theorem Offering.refuse {b : τ} {rest : List τ} (offering : Offering arrived key (b :: rest) m)
    (outranked : m.Outranked key b) : Offering arrived key rest m where
  placed := offering.placed
  distinct := (List.nodup_cons.mp offering.distinct).2
  waiting y later := offering.waiting y (by simp [later])
  others y waits := by
    rcases offering.others y waits with member | settled
    · rcases List.mem_cons.mp member with same | later
      · subst y
        exact Or.inr outranked
      · exact Or.inl later
    · exact Or.inr settled

theorem Offering.put {b : τ} {rest : List τ} {i : Fin cpus}
    (offering : Offering arrived key (b :: rest) m)
    (displaced : ∀ x, m.current i = some x → (m.put i b).Outranked key x)
    (kept : ∀ y, m.Outranked key y → (m.put i b).Outranked key y) :
    Offering arrived key rest (m.put i b) := by
  obtain ⟨fresh, distinct⟩ := List.nodup_cons.mp offering.distinct
  constructor
  · exact put_placed offering.placed i (offering.waiting b (by simp))
  · exact distinct
  · intro y later
    obtain ⟨ready, here⟩ := offering.waiting y (by simp [later])
    have other : y ≠ b := by
      intro same
      subst y
      exact fresh later
    have apart : m.current i ≠ some y := by
      intro held
      have running := (offering.placed.busy i y held).1
      rw [ready] at running
      simp at running
    refine ⟨?_, here⟩
    simp [Machine.put, other, apart, ready]
  · intro y waits
    obtain ⟨other, before⟩ := put_waiting waits
    rcases before with held | waits
    · exact Or.inr (displaced y held)
    · rcases offering.others y waits with member | settled
      · exact Or.inl ((List.mem_cons.mp member).resolve_left other)
      · exact Or.inr (kept y settled)

theorem Offering.step {b : τ} {rest : List τ} (offering : Offering arrived key (b :: rest) m)
    (offer : Offer key b m after) : Offering arrived key rest after := by
  cases offer with
  | @idle i none =>
      apply offering.put
      · intro x here
        simp [none] at here
      · intro y outranked
        obtain ⟨x, here, -⟩ := outranked i
        simp [none] at here
  | @preempt i x here greatest less =>
      have lower : ∀ y, key x ≤ key y → (m.put i b).Outranked key y := by
        intro y above j
        by_cases same : j = i
        · subst j
          exact ⟨b, by simp [Machine.put], by omega⟩
        · obtain ⟨z, held, bound⟩ := greatest j
          exact ⟨z, by simpa [Machine.put, same] using held, by omega⟩
      apply offering.put
      · intro y held
        rw [here, Option.some.injEq] at held
        subst y
        exact lower x (le_refl _)
      · intro y outranked
        obtain ⟨z, held, bound⟩ := outranked i
        rw [here, Option.some.injEq] at held
        subst z
        exact lower y bound
  | @refuse x _ greatest above =>
      apply offering.refuse
      intro j
      obtain ⟨z, held, bound⟩ := greatest j
      exact ⟨z, held, by omega⟩

theorem Offers.dispatched {offered : List τ} (offers : Offers key offered m after)
    (offering : Offering arrived key offered m) : after.Dispatched arrived key := by
  induction offers with
  | nil machine =>
      have settled : ∀ y, machine.Waiting arrived y → machine.Outranked key y := fun y waits =>
        (offering.others y waits).resolve_left (by simp)
      refine ⟨offering.placed, ?_, ?_⟩
      · intro i idle y waits
        obtain ⟨x, here, -⟩ := settled y waits i
        simp [idle] at here
      · intro x y running waits
        obtain ⟨i, here⟩ := offering.placed.held x running
        obtain ⟨z, held, bound⟩ := settled y waits i
        rw [here, Option.some.injEq] at held
        subst z
        exact bound
  | cons offer _ ih => exact ih (offering.step offer)

theorem Offers.finished {offered : List τ} (offers : Offers key offered m after)
    (offering : Offering arrived key offered m) (x : τ) :
    after.status x = .finished ↔ m.status x = .finished := by
  induction offers with
  | nil _ => rfl
  | @cons b rest m middle after offer _ ih =>
      have waiting := offering.waiting b (by simp)
      rw [ih (offering.step offer)]
      cases offer with
      | idle _ => exact put_finished offering.placed _ waiting x
      | preempt _ _ _ => exact put_finished offering.placed _ waiting x
      | refuse _ _ _ => rfl

end Machine

end OsLab.Library
