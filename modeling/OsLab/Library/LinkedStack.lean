import Mathlib.Logic.Function.Basic
import Mathlib.Data.List.Nodup

/-!
A stack threaded through its own elements: a head, and for each element a link to
the next. While no element is pushed twice the links spell out a list, which push
and pop change at the front.
-/

namespace OsLab.Library

variable {α : Type*}

inductive Chain (next : α → Option α) : Option α → List α → Prop
  | nil : Chain next none []
  | cons {element rest} : Chain next (next element) rest →
      Chain next (some element) (element :: rest)

inductive OnChain (next : α → Option α) : Option α → α → Prop
  | here (element) : OnChain next (some element) element
  | there {first element} : OnChain next (next first) element → OnChain next (some first) element

namespace Chain

variable {next : α → Option α} {head : Option α} {list : List α}

theorem onChain (chain : Chain next head list) {element : α} :
    OnChain next head element ↔ element ∈ list := by
  induction chain with
  | nil =>
      refine ⟨fun reached => ?_, fun member => by simp at member⟩
      cases reached
  | @cons first rest _ ih =>
      refine ⟨fun reached => ?_, fun member => ?_⟩
      · cases reached with
        | here => exact List.mem_cons_self
        | there later => exact List.mem_cons_of_mem _ (ih.mp later)
      · rcases List.mem_cons.mp member with rfl | later
        · exact .here _
        · exact .there (ih.mpr later)

theorem pop {element : α} (chain : Chain next (some element) list) :
    ∃ rest, list = element :: rest ∧ Chain next (next element) rest := by
  cases chain with
  | cons rest => exact ⟨_, rfl, rest⟩

variable [DecidableEq α]

theorem relink (chain : Chain next head list) {element : α} (outside : element ∉ list)
    (link : Option α) : Chain (Function.update next element link) head list := by
  induction chain with
  | nil => exact .nil
  | @cons first rest _ ih =>
      have other : first ≠ element := by
        rintro rfl
        exact outside List.mem_cons_self
      refine .cons ?_
      rw [Function.update_of_ne other]
      exact ih fun member => outside (List.mem_cons_of_mem _ member)

theorem push (chain : Chain next head list) {element : α} (fresh : element ∉ list) :
    Chain (Function.update next element head) (some element) (element :: list) := by
  refine .cons ?_
  rw [Function.update_self]
  exact chain.relink fresh head

end Chain

end OsLab.Library
