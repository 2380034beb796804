import Mathlib.Data.List.Chain
import Mathlib.Data.List.Nodup
import Mathlib.Logic.Function.Iterate

/-!
A singly linked ring. The links lead round the elements of a list; an element can be linked in
behind another one, and the next one can be linked out, and a walk from any of the elements comes
to every other.
-/

namespace OsLab.Library

variable {α : Type*} {f g : α → α} {nodes front back : List α} {a b p z : α}

/-- The links lead from each element to the next and from the last one to the first. -/
def Rings (f : α → α) (nodes : List α) : Prop :=
  (nodes ++ nodes.head?.toList).IsChain fun a b => f a = b

theorem chain_congr (chain : (nodes ++ [z]).IsChain fun a b => f a = b)
    (same : ∀ a ∈ nodes, g a = f a) :
    (nodes ++ [z]).IsChain fun a b => g a = b := by
  induction nodes with
  | nil => exact List.isChain_singleton z
  | cons a nodes ih =>
      have rest := ih chain.tail fun b member => same b (List.mem_cons_of_mem _ member)
      refine rest.cons fun b first => ?_
      rw [same a List.mem_cons_self]
      exact chain.rel_head? first

namespace Rings

theorem iff_split : Rings f (front ++ p :: back) ↔
    (front ++ [p]).IsChain (fun a b => f a = b) ∧
      (p :: (back ++ (front ++ [p]).head?.toList)).IsChain fun a b => f a = b := by
  have first : (front ++ p :: back).head? = (front ++ [p]).head? := by cases front <;> rfl
  rw [Rings, first, List.append_assoc, List.cons_append, List.isChain_split]

theorem closing (front : List α) (p : α) : ∃ z, (front ++ [p]).head?.toList = [z] := by
  cases front with
  | nil => exact ⟨p, rfl⟩
  | cons a front => exact ⟨a, rfl⟩

theorem next (rings : Rings f nodes) {i : ℕ} (found : nodes[i]? = some a) :
    nodes[(i + 1) % nodes.length]? = some (f a) := by
  obtain ⟨inside, here⟩ := List.getElem?_eq_some_iff.mp found
  obtain ⟨first, rest, rfl⟩ := List.exists_cons_of_length_pos (Nat.zero_lt_of_lt inside)
  have link := List.isChain_iff_getElem.mp rings i (by simpa using inside)
  rw [List.getElem_append_left inside, here] at link
  by_cases last : i + 1 < (first :: rest).length
  · rw [List.getElem_append_left last] at link
    rw [Nat.mod_eq_of_lt last, List.getElem?_eq_getElem last, link]
  · have closes : i + 1 = (first :: rest).length := by omega
    rw [List.getElem_append_right (by omega)] at link
    rw [closes, Nat.mod_self]
    simpa [closes] using link.symm

theorem mem (rings : Rings f nodes) (member : a ∈ nodes) : f a ∈ nodes := by
  obtain ⟨i, found⟩ := List.getElem?_of_mem member
  exact List.mem_of_getElem? (rings.next found)

theorem walk (rings : Rings f nodes) {i : ℕ} (found : nodes[i]? = some a) (k : ℕ) :
    nodes[(i + k) % nodes.length]? = some (f^[k] a) := by
  induction k with
  | zero =>
      obtain ⟨inside, -⟩ := List.getElem?_eq_some_iff.mp found
      rwa [Nat.add_zero, Nat.mod_eq_of_lt inside]
  | succ k ih =>
      have step := rings.next ih
      rw [Nat.mod_add_mod, Nat.add_assoc] at step
      rwa [Function.iterate_succ_apply']

theorem reach (rings : Rings f nodes) (one : a ∈ nodes) (two : b ∈ nodes) :
    ∃ k, k < nodes.length ∧ f^[k] a = b := by
  obtain ⟨i, found⟩ := List.getElem?_of_mem one
  obtain ⟨j, wanted⟩ := List.getElem?_of_mem two
  obtain ⟨inside, -⟩ := List.getElem?_eq_some_iff.mp found
  obtain ⟨within, -⟩ := List.getElem?_eq_some_iff.mp wanted
  refine ⟨(j + (nodes.length - i)) % nodes.length, Nat.mod_lt _ (by omega), ?_⟩
  have reached := rings.walk found ((j + (nodes.length - i)) % nodes.length)
  rw [Nat.add_mod_mod, show i + (j + (nodes.length - i)) = j + nodes.length by omega,
    Nat.add_mod_right, Nat.mod_eq_of_lt within, wanted] at reached
  exact (Option.some.inj reached).symm

theorem injective (rings : Rings f nodes) (one : a ∈ nodes) (two : b ∈ nodes)
    (same : f a = f b) : a = b := by
  -- the walk that leads from `f a` back to `a` leads from `f b` back to `b`
  obtain ⟨i, found⟩ := List.getElem?_of_mem one
  obtain ⟨j, wanted⟩ := List.getElem?_of_mem two
  obtain ⟨inside, -⟩ := List.getElem?_eq_some_iff.mp found
  obtain ⟨within, -⟩ := List.getElem?_eq_some_iff.mp wanted
  have first := rings.walk found nodes.length
  have second := rings.walk wanted nodes.length
  rw [Nat.add_mod_right, Nat.mod_eq_of_lt inside, found] at first
  rw [Nat.add_mod_right, Nat.mod_eq_of_lt within, wanted] at second
  obtain ⟨n, length⟩ : ∃ n, nodes.length = n + 1 := ⟨nodes.length - 1, by omega⟩
  rw [length, Function.iterate_succ_apply] at first second
  rw [same] at first
  exact Option.some.inj (first.trans second.symm)

theorem congr (rings : Rings f nodes) (same : ∀ a ∈ nodes, g a = f a) : Rings g nodes := by
  cases nodes with
  | nil => exact List.isChain_nil
  | cons first rest => exact chain_congr rings same

theorem link (rings : Rings f (front ++ p :: back)) :
    (back ++ (front ++ [p]).head?.toList).head? = some (f p) := by
  have chain := (iff_split.mp rings).2
  obtain ⟨z, closed⟩ := closing front p
  rw [closed] at chain ⊢
  cases back with
  | nil => exact congrArg some (List.isChain_pair.mp chain).symm
  | cons c back => exact congrArg some (List.isChain_cons_cons.mp chain).1.symm

variable [DecidableEq α]

theorem splice (rings : Rings f (front ++ p :: back)) (nodup : (front ++ p :: back).Nodup)
    (fresh : b ∉ front ++ p :: back) :
    Rings (Function.update (Function.update f b (f p)) p b) (front ++ p :: b :: back) := by
  obtain ⟨before, after⟩ := iff_split.mp rings
  obtain ⟨z, closed⟩ := closing front p
  have seam := rings.link
  rw [closed] at after seam
  simp only [List.mem_append, List.mem_cons, not_or] at fresh
  obtain ⟨notFront, apart, notBack⟩ := fresh
  rw [List.nodup_append, List.nodup_cons] at nodup
  obtain ⟨-, ⟨once, -⟩, across⟩ := nodup
  have kept : ∀ a, a ≠ p → a ≠ b →
      Function.update (Function.update f b (f p)) p b a = f a := fun a first second => by
    rw [Function.update_of_ne first, Function.update_of_ne second]
  refine iff_split.mpr ⟨chain_congr before fun a member => kept a ?_ ?_, ?_⟩
  · exact across a member p List.mem_cons_self
  · exact fun same => notFront (same ▸ member)
  · rw [closed]
    refine List.IsChain.cons (List.IsChain.cons
      (chain_congr after.tail fun a member => kept a ?_ ?_) fun c first => ?_) fun c first => ?_
    · exact fun same => once (same ▸ member)
    · exact fun same => notBack (same ▸ member)
    · rw [Function.update_of_ne apart, Function.update_self]
      exact Option.some.inj (seam.symm.trans first)
    · rw [Function.update_self]
      exact Option.some.inj first

theorem bypass (rings : Rings f (front ++ p :: b :: back))
    (nodup : (front ++ p :: b :: back).Nodup) :
    Rings (Function.update f p (f b)) (front ++ p :: back) := by
  obtain ⟨before, after⟩ := iff_split.mp rings
  obtain ⟨z, closed⟩ := closing front p
  rw [closed] at after
  rw [List.nodup_append, List.nodup_cons] at nodup
  obtain ⟨-, ⟨once, -⟩, across⟩ := nodup
  have kept : ∀ a, a ≠ p → Function.update f p (f b) a = f a := fun a other =>
    Function.update_of_ne other ..
  refine iff_split.mpr ⟨chain_congr before fun a member => kept a ?_, ?_⟩
  · exact across a member p List.mem_cons_self
  · rw [closed]
    have rest : (b :: (back ++ [z])).IsChain fun a b => f a = b := after.tail
    refine List.IsChain.cons (chain_congr rest.tail fun a member => kept a ?_) fun c first => ?_
    · exact fun same => once (List.mem_cons_of_mem _ (same ▸ member))
    · rw [Function.update_self]
      exact rest.rel_head? first

end Rings

end OsLab.Library
