import OsLab.Library.LinkedStack
import Mathlib.Data.List.Count
import Mathlib.Data.Nat.Notation

/-!
`kalloc` and `kfree`: the free pages form a list through the `struct run` at the
start of each. Each call holds `kmem.lock` from end to end and is one step.
-/

namespace OsLab.Kernel

open OsLab.Library

/-- A physical page number. -/
abbrev Frame := ℕ

/-- The rest records the run: the pages given back and not handed out again, those handed out
as user memory and not given back, and whether `kfree` was ever called on a free page. -/
structure Kmem where
  freelist : Option Frame
  next : Frame → Option Frame
  free : Frame → Bool
  user : Frame → Bool
  refreed : Bool

namespace Kmem

def kalloc (kmem : Kmem) : Option (Frame × Kmem) :=
  match kmem.freelist with
  | none => none
  | some r =>
      some (r, { kmem with
        freelist := kmem.next r
        free := Function.update kmem.free r false })

/-- Pages come from `kalloc`, so the range check passes. -/
def kfree (kmem : Kmem) (r : Frame) : Kmem where
  next := Function.update kmem.next r kmem.freelist
  freelist := some r
  free := Function.update kmem.free r true
  user := Function.update kmem.user r false
  refreed := kmem.refreed || kmem.free r

def lend (kmem : Kmem) (r : Frame) : Kmem :=
  { kmem with user := Function.update kmem.user r true }

def kfreeAll (kmem : Kmem) (frames : List Frame) : Kmem := frames.foldl kfree kmem

def kfreeIf (kmem : Kmem) : Option Frame → Kmem
  | none => kmem
  | some r => kmem.kfree r

def OnFreelist (kmem : Kmem) (frame : Frame) : Prop :=
  OnChain kmem.next kmem.freelist frame

def empty : Kmem where
  freelist := none
  next _ := none
  free _ := false
  user _ := false
  refreed := false

structure Holds (kmem : Kmem) (frames : List Frame) : Prop where
  chain : Chain kmem.next kmem.freelist frames
  nodup : frames.Nodup
  free : ∀ frame, kmem.free frame = true ↔ frame ∈ frames
  once : kmem.refreed = false

variable {kmem after : Kmem} {frames : List Frame} {r : Frame}

theorem holds_empty : empty.Holds [] := ⟨.nil, List.nodup_nil, by simp [empty], rfl⟩

theorem Holds.onFreelist (holds : kmem.Holds frames) {frame : Frame} :
    kmem.OnFreelist frame ↔ frame ∈ frames := holds.chain.onChain

theorem Holds.kalloc (holds : kmem.Holds frames) (got : kmem.kalloc = some (r, after)) :
    ∃ rest, frames = r :: rest ∧ after.Holds rest := by
  rw [Kmem.kalloc] at got
  split at got
  · simp at got
  · rename_i first head
    obtain ⟨rfl, rfl⟩ := Prod.mk.inj (Option.some.inj got)
    have chain := holds.chain
    rw [head] at chain
    obtain ⟨rest, rfl, later⟩ := chain.pop
    obtain ⟨fresh, nodup⟩ := List.nodup_cons.mp holds.nodup
    refine ⟨rest, rfl, later, nodup, fun frame => ?_, holds.once⟩
    by_cases same : frame = first
    · simp [same, fresh]
    · simp [same, holds.free frame]

theorem Holds.kfree (holds : kmem.Holds frames) (taken : r ∉ frames) :
    (kmem.kfree r).Holds (r :: frames) := by
  have live : kmem.free r = false := by
    rw [← Bool.not_eq_true]
    exact fun free => taken ((holds.free r).mp free)
  refine ⟨holds.chain.push taken, List.nodup_cons.mpr ⟨taken, holds.nodup⟩, fun frame => ?_, ?_⟩
  · by_cases same : frame = r
    · simp [Kmem.kfree, same]
    · simp [Kmem.kfree, same, holds.free frame]
  · simp [Kmem.kfree, holds.once, live]

theorem Holds.lend (holds : kmem.Holds frames) : (kmem.lend r).Holds frames :=
  ⟨holds.chain, holds.nodup, holds.free, holds.once⟩

theorem Holds.kfreeAll {given : List Frame} (holds : kmem.Holds frames)
    (distinct : ∀ frame, frames.count frame + given.count frame ≤ 1) :
    ∃ later, (kmem.kfreeAll given).Holds later ∧
      ∀ frame, later.count frame = frames.count frame + given.count frame := by
  induction given generalizing kmem frames with
  | nil => exact ⟨frames, holds, by simp⟩
  | cons first rest ih =>
      have taken : first ∉ frames := by
        have bound := distinct first
        rw [List.count_cons_self] at bound
        exact List.count_eq_zero.mp (by omega)
      have after : ∀ frame, (first :: frames).count frame + rest.count frame =
          frames.count frame + (first :: rest).count frame := by
        intro frame
        simp only [List.count_cons]
        omega
      obtain ⟨later, holds, count⟩ := ih (holds.kfree taken) fun frame => by
        rw [after]
        exact distinct frame
      exact ⟨later, holds, fun frame => by rw [count, after]⟩

theorem Holds.kfreeIf {given : Option Frame} (holds : kmem.Holds frames)
    (distinct : ∀ frame, frames.count frame + given.toList.count frame ≤ 1) :
    ∃ later, (kmem.kfreeIf given).Holds later ∧
      ∀ frame, later.count frame = frames.count frame + given.toList.count frame := by
  cases given with
  | none => exact ⟨frames, holds, by simp⟩
  | some r =>
      have single := holds.kfreeAll distinct
      exact single

@[simp] theorem user_kfree (frame : Frame) :
    (kmem.kfree r).user frame = true ↔ frame ≠ r ∧ kmem.user frame = true := by
  by_cases same : frame = r <;> simp [Kmem.kfree, same]

theorem user_kfreeAll {given : List Frame} {frame : Frame}
    (lent : (kmem.kfreeAll given).user frame = true) : kmem.user frame = true := by
  induction given generalizing kmem with
  | nil => exact lent
  | cons first rest ih => exact ((user_kfree frame).mp (ih lent)).2

theorem user_kfreeIf {given : Option Frame} {frame : Frame}
    (lent : (kmem.kfreeIf given).user frame = true) : kmem.user frame = true := by
  cases given with
  | none => exact lent
  | some r => exact ((user_kfree frame).mp lent).2

theorem user_kalloc (got : kmem.kalloc = some (r, after)) : after.user = kmem.user := by
  rw [Kmem.kalloc] at got
  split at got
  · simp at got
  · obtain ⟨rfl, rfl⟩ := Prod.mk.inj (Option.some.inj got)
    rfl

end Kmem

end OsLab.Kernel
