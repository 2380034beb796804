import Mathlib.Order.Lattice
import Mathlib.Data.List.Pairwise
import Mathlib.Tactic.Tauto

/-!
Spans of a linear order, from a first element up to a last one that is left out. A list of spans in
order, no two of which touch, is the only such list for what it covers; a span put in between two
of them is joined with those that it touches.
-/

namespace OsLab.Library

variable {α : Type*} [LinearOrder α]

def covers (spans : List (α × α)) (x : α) : Prop := ∃ a ∈ spans, a.1 ≤ x ∧ x < a.2

structure Separated (spans : List (α × α)) : Prop where
  apart : spans.Pairwise fun a b => a.2 < b.1
  proper : ∀ a ∈ spans, a.1 ≤ a.2

/-- A span in front of others is joined with the next one if they touch. -/
def joinNext (a : α × α) : List (α × α) → List (α × α)
  | [] => [a]
  | c :: rest => if a.2 = c.1 then (a.1, c.2) :: rest else a :: c :: rest

variable {a b p : α × α} {spans front back : List (α × α)} {x y z : α}

theorem covers_cons : covers (a :: spans) x ↔ (a.1 ≤ x ∧ x < a.2) ∨ covers spans x := by
  simp [covers]

theorem covers_append : covers (front ++ back) x ↔ covers front x ∨ covers back x := by
  simp only [covers, List.mem_append, or_and_right, exists_or]

theorem covers_middle : covers (front ++ p :: back) x ↔
    covers (front ++ back) x ∨ (p.1 ≤ x ∧ x < p.2) := by
  rw [covers_append, covers_append, covers_cons]
  tauto

theorem covers_cut (lower : p.1 ≤ y) (upper : y ≤ p.2) : covers (front ++ p :: back) x ↔
    covers (front ++ (p.1, y) :: back) x ∨ (y ≤ x ∧ x < p.2) := by
  have parts : p.1 ≤ x ∧ x < p.2 ↔ (p.1 ≤ x ∧ x < y) ∨ (y ≤ x ∧ x < p.2) := by
    constructor
    · rintro ⟨above, below⟩
      exact (lt_or_ge x y).imp (fun low => ⟨above, low⟩) fun high => ⟨high, below⟩
    · rintro (⟨above, low⟩ | ⟨high, below⟩)
      · exact ⟨above, low.trans_le upper⟩
      · exact ⟨lower.trans high, below⟩
  rw [covers_middle, covers_middle, parts, or_assoc]

theorem joinNext_cases (a : α × α) (spans : List (α × α)) :
    (joinNext a spans = a :: spans ∧ ∀ c ∈ spans.head?, a.2 ≠ c.1) ∨
      ∃ c rest, spans = c :: rest ∧ a.2 = c.1 ∧ joinNext a spans = (a.1, c.2) :: rest := by
  cases spans with
  | nil => exact .inl ⟨rfl, by simp⟩
  | cons c rest =>
      by_cases touch : a.2 = c.1
      · exact .inr ⟨c, rest, rfl, touch, if_pos touch⟩
      · exact .inl ⟨if_neg touch, by simpa using touch⟩

theorem mem_joinNext (member : b ∈ joinNext a spans) : b.1 = a.1 ∨ b ∈ spans := by
  cases spans with
  | nil =>
      rw [joinNext, List.mem_singleton] at member
      exact .inl (congrArg Prod.fst member)
  | cons c rest =>
      rw [joinNext] at member
      split at member <;> rcases List.mem_cons.mp member with rfl | inside
      · exact .inl rfl
      · exact .inr (List.mem_cons_of_mem _ inside)
      · exact .inl rfl
      · exact .inr inside

theorem covers_joinNext (proper : a.1 ≤ a.2) (separated : Separated spans) :
    covers (joinNext a spans) x ↔ (a.1 ≤ x ∧ x < a.2) ∨ covers spans x := by
  cases spans with
  | nil => exact covers_cons
  | cons c rest =>
      have follows := separated.proper c List.mem_cons_self
      rw [joinNext]
      split
      · rename_i touch
        rw [covers_cons, covers_cons, ← or_assoc]
        refine or_congr_left ?_
        dsimp only
        rw [touch] at proper ⊢
        constructor
        · rintro ⟨low, high⟩
          rcases lt_or_ge x c.1 with before | after
          · exact .inl ⟨low, before⟩
          · exact .inr ⟨after, high⟩
        · rintro (⟨low, high⟩ | ⟨low, high⟩)
          · exact ⟨low, high.trans_le follows⟩
          · exact ⟨proper.trans low, high⟩
      · exact covers_cons

theorem Separated.joinNext (separated : Separated spans) (proper : a.1 ≤ a.2)
    (before : ∀ c ∈ spans, a.2 ≤ c.1) : Separated (joinNext a spans) := by
  cases spans with
  | nil => exact ⟨List.pairwise_singleton _ _, by simpa [Library.joinNext] using proper⟩
  | cons c rest =>
      obtain ⟨apart, inside⟩ := separated
      have follows := inside c List.mem_cons_self
      have order := before c List.mem_cons_self
      obtain ⟨first, later⟩ := List.pairwise_cons.mp apart
      rw [Library.joinNext]
      split
      · refine ⟨List.pairwise_cons.mpr ⟨first, later⟩, fun b member => ?_⟩
        rcases List.mem_cons.mp member with rfl | member
        · exact proper.trans (order.trans follows)
        · exact inside b (List.mem_cons_of_mem _ member)
      · rename_i touch
        have strict : a.2 < c.1 := lt_of_le_of_ne order touch
        refine ⟨List.pairwise_cons.mpr ⟨fun b member => ?_, apart⟩, fun b member => ?_⟩
        · rcases List.mem_cons.mp member with rfl | member
          · exact strict
          · exact (strict.trans_le follows).trans (first b member)
        · rcases List.mem_cons.mp member with rfl | member
          · exact proper
          · exact inside b member

namespace Separated

theorem left (separated : Separated (front ++ back)) : Separated front :=
  ⟨(List.pairwise_append.mp separated.apart).1,
    fun a member => separated.proper a (List.mem_append_left _ member)⟩

theorem right (separated : Separated (front ++ back)) : Separated back :=
  ⟨(List.pairwise_append.mp separated.apart).2.1,
    fun a member => separated.proper a (List.mem_append_right _ member)⟩

theorem tail (separated : Separated (a :: spans)) : Separated spans :=
  ⟨(List.pairwise_cons.mp separated.apart).2,
    fun b member => separated.proper b (List.mem_cons_of_mem _ member)⟩

/-- A span is put in behind `p` and joined with the spans that it touches. -/
theorem insert (separated : Separated (front ++ p :: back)) (proper : b.1 ≤ b.2)
    (after : p.2 ≤ b.1) (before : ∀ c ∈ back, b.2 ≤ c.1) :
    Separated (front ++ Library.joinNext p (Library.joinNext b back)) := by
  obtain ⟨ordered, tail, across⟩ := List.pairwise_append.mp separated.apart
  have rest : Separated (p :: back) := separated.right
  have tail : Separated back := rest.tail
  have joined := tail.joinNext proper before
  have first : p.1 ≤ p.2 := rest.proper p List.mem_cons_self
  have follows : ∀ c ∈ Library.joinNext b back, p.2 ≤ c.1 := by
    intro c member
    rcases mem_joinNext member with same | inside
    · exact same ▸ after
    · exact after.trans (proper.trans (before c inside))
  have whole := joined.joinNext first follows
  refine ⟨List.pairwise_append.mpr ⟨ordered, whole.apart, fun a one c two => ?_⟩,
    fun a member => ?_⟩
  · have low := across a one p List.mem_cons_self
    rcases mem_joinNext two with same | inside
    · exact same ▸ low
    · exact (low.trans_le first).trans_le (follows c inside)
  · rcases List.mem_append.mp member with early | late
    · exact separated.proper a (List.mem_append_left _ early)
    · exact whole.proper a late

theorem covers_insert (separated : Separated (front ++ p :: back)) (proper : b.1 ≤ b.2)
    (before : ∀ c ∈ back, b.2 ≤ c.1) :
    covers (front ++ Library.joinNext p (Library.joinNext b back)) x ↔
      covers (front ++ p :: back) x ∨ (b.1 ≤ x ∧ x < b.2) := by
  have rest : Separated (p :: back) := separated.right
  have tail : Separated back := rest.tail
  have first : p.1 ≤ p.2 := rest.proper p List.mem_cons_self
  rw [covers_append, covers_append, covers_cons,
    covers_joinNext first (tail.joinNext proper before), covers_joinNext proper tail]
  tauto

theorem cut (separated : Separated (front ++ p :: back)) (lower : p.1 ≤ y) (upper : y ≤ p.2) :
    Separated (front ++ (p.1, y) :: back) := by
  obtain ⟨ordered, tail, across⟩ := List.pairwise_append.mp separated.apart
  obtain ⟨first, later⟩ := List.pairwise_cons.mp tail
  refine ⟨List.pairwise_append.mpr ⟨ordered, List.pairwise_cons.mpr
    ⟨fun c member => upper.trans_lt (first c member), later⟩, fun a before c member => ?_⟩,
    fun a member => ?_⟩
  · rcases List.mem_cons.mp member with rfl | after
    · exact across a before p List.mem_cons_self
    · exact across a before c (List.mem_cons_of_mem _ after)
  · rw [List.mem_append, List.mem_cons] at member
    rcases member with early | rfl | late
    · exact separated.proper a (List.mem_append_left _ early)
    · exact lower
    · exact separated.proper a (List.mem_append_right _ (List.mem_cons_of_mem _ late))

theorem disjoint (separated : Separated spans) (one : a ∈ spans) (two : b ∈ spans)
    (different : a ≠ b) : a.2 < b.1 ∨ b.2 < a.1 := by
  have symmetric : Std.Symm fun a b : α × α => a.2 < b.1 ∨ b.2 < a.1 := ⟨fun _ _ => Or.symm⟩
  have either : spans.Pairwise fun a b => a.2 < b.1 ∨ b.2 < a.1 := separated.apart.imp Or.inl
  exact either.forall one two different

theorem within (separated : Separated spans) (lower : x < z)
    (covered : ∀ y, x ≤ y → y < z → covers spans y) : ∃ a ∈ spans, a.1 ≤ x ∧ z ≤ a.2 := by
  obtain ⟨a, one, low, high⟩ := covered x le_rfl lower
  refine ⟨a, one, low, ?_⟩
  by_contra short
  obtain ⟨c, two, under, above⟩ := covered a.2 high.le (not_le.mp short)
  have different : a ≠ c := by
    rintro rfl
    exact above.false
  rcases separated.disjoint one two different with before | after
  · exact (before.trans_le under).false
  · exact ((after.trans_le low).trans (high.trans above)).false

end Separated

end OsLab.Library
