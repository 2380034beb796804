import Mathlib.Data.List.Range
import Mathlib.Data.Nat.ModEq
import Mathlib.Logic.Function.Basic
import Mathlib.Tactic.Common

/-!
Circular buffers read as bounded first-in first-out lists: `head`, `tail` and
`count` over `capacity` slots, and the list of elements they hold, oldest first.
-/

namespace OsLab.Library.Ring

variable {α : Type*} {capacity head tail count : ℕ}

def contents (capacity : ℕ) (slots : ℕ → α) (head count : ℕ) : List α :=
  (List.range count).map fun k => slots ((head + k) % capacity)

structure Valid (capacity head tail count : ℕ) : Prop where
  head_lt : head < capacity
  count_le : count ≤ capacity
  tail_eq : tail = (head + count) % capacity

theorem Valid.empty (positive : 0 < capacity) : Valid capacity 0 0 0 :=
  ⟨positive, Nat.zero_le _, by simp⟩

theorem Valid.push (valid : Valid capacity head tail count) (room : count < capacity) :
    Valid capacity head ((tail + 1) % capacity) (count + 1) where
  head_lt := valid.head_lt
  count_le := room
  tail_eq := by rw [valid.tail_eq, Nat.mod_add_mod, Nat.add_assoc]

theorem Valid.pop (valid : Valid capacity head tail count) (nonempty : 0 < count) :
    Valid capacity ((head + 1) % capacity) tail (count - 1) where
  head_lt := Nat.mod_lt _ (by have := valid.head_lt; omega)
  count_le := by have := valid.count_le; omega
  tail_eq := by
    rw [valid.tail_eq, Nat.mod_add_mod]
    congr 1
    omega

@[simp] theorem length_contents (slots : ℕ → α) :
    (contents capacity slots head count).length = count := by
  simp [contents]

@[simp] theorem contents_zero (slots : ℕ → α) : contents capacity slots head 0 = [] := rfl

theorem contents_overwrite (slots : ℕ → α) (value : α) (valid : Valid capacity head tail count)
    (room : count < capacity) :
    contents capacity (Function.update slots tail value) head count =
      contents capacity slots head count := by
  apply List.map_congr_left
  intro k member
  have below := List.mem_range.mp member
  apply Function.update_of_ne
  rw [valid.tail_eq]
  intro same
  have modulo : k ≡ count [MOD capacity] := Nat.ModEq.add_left_cancel' head same
  rw [Nat.ModEq, Nat.mod_eq_of_lt (by omega), Nat.mod_eq_of_lt room] at modulo
  omega

theorem contents_push (slots : ℕ → α) (value : α) (valid : Valid capacity head tail count)
    (room : count < capacity) :
    contents capacity (Function.update slots tail value) head (count + 1) =
      contents capacity slots head count ++ [value] := by
  rw [← contents_overwrite slots value valid room]
  simp [contents, List.range_succ, valid.tail_eq]

theorem contents_pop (slots : ℕ → α) (below : head < capacity) (nonempty : 0 < count) :
    contents capacity slots head count =
      slots head :: contents capacity slots ((head + 1) % capacity) (count - 1) := by
  obtain ⟨rest, rfl⟩ : ∃ rest, count = rest + 1 := ⟨count - 1, by omega⟩
  simp only [contents, List.range_succ_eq_map, List.map_cons, List.map_map, Nat.add_zero,
    Nat.mod_eq_of_lt below, Nat.add_sub_cancel]
  congr 1
  apply List.map_congr_left
  intro k _
  simp only [Function.comp_apply, Nat.mod_add_mod]
  congr 2
  omega

end OsLab.Library.Ring
