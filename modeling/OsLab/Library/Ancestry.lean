import Mathlib.Dynamics.PeriodicPts.Defs

/-!
Nodes with a parent each, up to a root that is its own parent. Each node has a label in its
parent; the labels on the way up, read downwards, lead from the root to the node.
-/

namespace OsLab.Library.Ancestry

variable {ι L : Type*} {parent : ι → ι} {label : ι → L} {child : ι → L → Option ι} {root : ι}

/-- The labels of a node and of the `k - 1` nodes above it, the topmost first. -/
def trail (parent : ι → ι) (label : ι → L) : ℕ → ι → List L
  | 0, _ => []
  | k + 1, x => trail parent label k (parent x) ++ [label x]

def follow (child : ι → L → Option ι) (x : ι) : List L → Option ι
  | [] => some x
  | l :: labels => (child x l).bind fun y => follow child y labels

theorem follow_append (x : ι) (first second : List L) : follow child x (first ++ second) =
    (follow child x first).bind fun y => follow child y second := by
  induction first generalizing x with
  | nil => rfl
  | cons l first ih =>
      rw [List.cons_append, follow, follow, Option.bind_assoc]
      congr 1
      funext y
      exact ih y

@[simp] theorem trail_length (k : ℕ) (x : ι) : (trail parent label k x).length = k := by
  induction k generalizing x with
  | zero => rfl
  | succ k ih => simp [trail, ih]

theorem trail_map {M : Type*} (view : L → M) (k : ℕ) (x : ι) :
    (trail parent label k x).map view = trail parent (fun y => view (label y)) k x := by
  induction k generalizing x with
  | zero => rfl
  | succ k ih => simp [trail, ih]

theorem mem_trail {k : ℕ} {x : ι} {l : L} (member : l ∈ trail parent label k x) :
    ∃ j < k, l = label (parent^[j] x) := by
  induction k generalizing x with
  | zero => simp [trail] at member
  | succ k ih =>
      rcases List.mem_append.mp member with above | last
      · obtain ⟨j, less, same⟩ := ih above
        exact ⟨j + 1, by omega, same⟩
      · exact ⟨0, by omega, List.mem_singleton.mp last⟩

theorem follow_trail {k : ℕ} {x : ι} (top : parent^[k] x = root)
    (down : ∀ j < k, child (parent^[j + 1] x) (label (parent^[j] x)) = some (parent^[j] x)) :
    follow child root (trail parent label k x) = some x := by
  induction k generalizing x with
  | zero => exact congrArg some top.symm
  | succ k ih =>
      have above := ih (x := parent x) top fun j less => down (j + 1) (by omega)
      have last : child (parent x) (label x) = some x := down 0 (by omega)
      rw [trail, follow_append, above, Option.bind_some, follow, last]
      rfl

theorem iterate_ne (fixed : parent root = root) {k : ℕ} {x : ι} (top : parent^[k] x = root)
    (below : x ≠ root) {m : ℕ} (some : 0 < m) : parent^[m] x ≠ x := by
  intro cycle
  have periodic : Function.IsPeriodicPt parent (m * k) x := Function.IsPeriodicPt.mul_const cycle k
  have far : parent^[m * k] x = root := by
    have split : m * k = (m * k - k) + k := by
      have more := Nat.le_mul_of_pos_left k some
      omega
    rw [split, Function.iterate_add_apply, top, Function.iterate_fixed fixed]
  exact below (periodic.symm.trans far)

end OsLab.Library.Ancestry
