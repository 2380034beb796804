import Mathlib.Logic.Function.Basic

/-!
Mutual exclusion for threads whose control point says which locks they hold. If
acquiring, releasing and every other move keep the owners in step with the control
points, a lock is never held at two control points at once.
-/

namespace OsLab.Library

variable {Thread Lock Pc : Type*}

/-- The owner of a lock is the thread whose control point holds it. -/
def Owned (held : Thread → Pc → Lock → Prop) (owner : Lock → Option Thread) (pc : Thread → Pc) :
    Prop :=
  ∀ lock thread, owner lock = some thread ↔ held thread (pc thread) lock

namespace Owned

variable {held : Thread → Pc → Lock → Prop} {owner : Lock → Option Thread} {pc : Thread → Pc}

theorem exclusive (owned : Owned held owner pc) {lock : Lock} {first second : Thread}
    (one : held first (pc first) lock) (two : held second (pc second) lock) : first = second :=
  Option.some.inj (((owned lock first).mpr one).symm.trans ((owned lock second).mpr two))

theorem not_held (owned : Owned held owner pc) {lock : Lock} (free : owner lock = none)
    (thread : Thread) : ¬ held thread (pc thread) lock := by
  intro holds
  have taken := (owned lock thread).mpr holds
  simp [free] at taken

variable [DecidableEq Thread]

theorem move (owned : Owned held owner pc) {thread : Thread} {next : Pc}
    (same : ∀ lock, held thread next lock ↔ held thread (pc thread) lock) :
    Owned held owner (Function.update pc thread next) := by
  intro lock other
  by_cases self : other = thread
  · subst other
    rw [Function.update_self, same]
    exact owned lock thread
  · rw [Function.update_of_ne self]
    exact owned lock other

variable [DecidableEq Lock]

theorem acquire (owned : Owned held owner pc) {thread : Thread} {next : Pc} {lock : Lock}
    (free : owner lock = none)
    (gains : ∀ other, held thread next other ↔ other = lock ∨ held thread (pc thread) other) :
    Owned held (Function.update owner lock (some thread)) (Function.update pc thread next) := by
  intro target other
  by_cases hit : target = lock
  · subst target
    by_cases self : other = thread
    · subst other
      simp [gains]
    · simp only [Function.update_self, Function.update_of_ne self]
      refine ⟨fun stolen => absurd (Option.some.inj stolen).symm self, fun holds => ?_⟩
      exact absurd holds (owned.not_held free other)
  · rw [Function.update_of_ne hit]
    by_cases self : other = thread
    · subst other
      rw [Function.update_self, gains]
      simp [hit, owned target thread]
    · rw [Function.update_of_ne self]
      exact owned target other

theorem release (owned : Owned held owner pc) {thread : Thread} {next : Pc} {lock : Lock}
    (mine : held thread (pc thread) lock)
    (loses : ∀ other, held thread next other ↔ other ≠ lock ∧ held thread (pc thread) other) :
    Owned held (Function.update owner lock none) (Function.update pc thread next) := by
  intro target other
  by_cases hit : target = lock
  · subst target
    by_cases self : other = thread
    · subst other
      simp [loses]
    · simp only [Function.update_self, Function.update_of_ne self]
      refine ⟨fun none => by simp at none, fun holds => absurd (owned.exclusive holds mine) self⟩
  · rw [Function.update_of_ne hit]
    by_cases self : other = thread
    · subst other
      rw [Function.update_self, loses]
      simp [hit, owned target thread]
    · rw [Function.update_of_ne self]
      exact owned target other

end Owned

end OsLab.Library
