import Mathlib.Algebra.BigOperators.Group.Finset.Basic
import Mathlib.Algebra.Order.BigOperators.Group.Finset

/-!
Reference counts. Each thread holds a list of references to objects, and an object's
count covers what the threads hold together; other parts of a system may hold more.
-/

namespace OsLab.Library

variable {Thread Object : Type*} [Fintype Thread] [DecidableEq Object]

theorem sum_update [DecidableEq Thread] (holds : Thread → List Object) (thread : Thread)
    (next : List Object) (object : Object) :
    ∑ other, (Function.update holds thread next other).count object +
      (holds thread).count object = ∑ other, (holds other).count object + next.count object := by
  have split : ∀ held : Thread → List Object, ∑ other, (held other).count object =
      (held thread).count object + ∑ other ∈ Finset.univ.erase thread, (held other).count object :=
    fun held => (Finset.add_sum_erase _ _ (Finset.mem_univ thread)).symm
  have rest : ∑ other ∈ Finset.univ.erase thread,
      (Function.update holds thread next other).count object =
      ∑ other ∈ Finset.univ.erase thread, (holds other).count object := by
    refine Finset.sum_congr rfl fun other member => ?_
    rw [Function.update_of_ne (Finset.ne_of_mem_erase member)]
  rw [split, split holds, Function.update_self, rest]
  omega

def Covers (count : Object → ℕ) (holds : Thread → List Object) : Prop :=
  ∀ object, ∑ thread, (holds thread).count object ≤ count object

namespace Covers

variable {count after : Object → ℕ} {holds : Thread → List Object} {thread : Thread}
  {object : Object}

theorem held (covers : Covers count holds) (thread : Thread) (object : Object) :
    (holds thread).count object ≤ count object := by
  have part : (holds thread).count object ≤ ∑ other, (holds other).count object :=
    Finset.single_le_sum (f := fun other => (holds other).count object)
      (fun _ _ => Nat.zero_le _) (Finset.mem_univ thread)
  exact part.trans (covers object)

theorem pos (covers : Covers count holds) (thread : Thread) (mine : object ∈ holds thread) :
    0 < count object :=
  (List.count_pos_iff.mpr mine).trans_le (covers.held thread object)

theorem mono (covers : Covers count holds) (grows : ∀ object, count object ≤ after object) :
    Covers after holds := fun object => (covers object).trans (grows object)

variable [DecidableEq Thread]

theorem move (covers : Covers count holds) {next : List Object}
    (follows : ∀ object, count object + next.count object ≤
      after object + (holds thread).count object) :
    Covers after (Function.update holds thread next) := by
  intro object
  have exchanged := sum_update holds thread next object
  have before := covers object
  have change := follows object
  omega

end Covers

def Counts (count more : Object → ℕ) (holds : Thread → List Object) : Prop :=
  ∀ object, count object = ∑ thread, (holds thread).count object + more object

namespace Counts

variable {count after more extra : Object → ℕ} {holds : Thread → List Object} {thread : Thread}
  {object : Object}

theorem covers (counts : Counts count more holds) : Covers count holds := fun object => by
  rw [counts object]
  exact Nat.le_add_right _ _

theorem free (counts : Counts count more holds) (zero : count object = 0) :
    (∀ thread, object ∉ holds thread) ∧ more object = 0 := by
  have total := counts object
  refine ⟨fun thread mine => ?_, by omega⟩
  have held := counts.covers.pos thread mine
  omega

theorem move [DecidableEq Thread] (counts : Counts count more holds) {next : List Object}
    (follows : ∀ object, count object + next.count object + extra object =
      after object + (holds thread).count object + more object) :
    Counts after extra (Function.update holds thread next) := by
  intro object
  have exchanged := sum_update holds thread next object
  have before := counts object
  have change := follows object
  omega

end Counts

end OsLab.Library
