import Mathlib.Data.Nat.Notation
import Mathlib.Logic.Function.Basic
import Mathlib.Tactic.Common

/-!
Radix trees in a memory of nodes. A node of height 0 holds the values, a node above it links
to nodes of the height below, and a key says which entry to take at each height.
-/

namespace OsLab.Library

/-- How the entries of a node are read, and what holds of the entries that link. -/
structure RadixFormat (Node Entry : Type*) where
  valid : Entry → Bool
  target : Entry → Node
  proper : Entry → Prop

namespace RadixFormat

variable {Node Index Entry : Type*} (fmt : RadixFormat Node Entry)

/-- The node of height 0 on the way of the key. -/
def find (mem : Node → Index → Entry) (key : ℕ → Index) : ℕ → Node → Option Node
  | 0, node => some node
  | height + 1, node =>
      if fmt.valid (mem node (key (height + 1))) then
        find mem key height (fmt.target (mem node (key (height + 1))))
      else none

def lookup (mem : Node → Index → Entry) (key : ℕ → Index) (height : ℕ) (node : Node) :
    Option Entry :=
  (fmt.find mem key height node).bind fun low =>
    if fmt.valid (mem low (key 0)) then some (mem low (key 0)) else none

def Within (mem : Node → Index → Entry) : ℕ → Node → Node → Prop
  | 0, node, other => other = node
  | height + 1, node, other => other = node ∨
      ∃ i, fmt.valid (mem node i) = true ∧ Within mem height (fmt.target (mem node i)) other

def Tree (mem : Node → Index → Entry) : ℕ → Node → Prop
  | 0, _ => True
  | height + 1, node => ∀ i, fmt.valid (mem node i) = true →
      fmt.proper (mem node i) ∧ Tree mem height (fmt.target (mem node i)) ∧
        ¬ fmt.Within mem height (fmt.target (mem node i)) node ∧
        ∀ j other, fmt.valid (mem node j) = true →
          fmt.Within mem height (fmt.target (mem node i)) other →
          fmt.Within mem height (fmt.target (mem node j)) other → i = j

variable {fmt} {mem later : Node → Index → Entry} {key path : ℕ → Index} {height : ℕ}
  {node other low : Node}

theorem lookup_succ : fmt.lookup mem key (height + 1) node =
    if fmt.valid (mem node (key (height + 1))) then
      fmt.lookup mem key height (fmt.target (mem node (key (height + 1))))
    else none := by
  rw [lookup, find]
  split
  · rfl
  · rfl

theorem within_self (mem : Node → Index → Entry) (height : ℕ) (node : Node) :
    fmt.Within mem height node node := by
  cases height with
  | zero => rfl
  | succ height => exact .inl rfl

theorem within_of_find (found : fmt.find mem key height node = some low) :
    fmt.Within mem height node low := by
  induction height generalizing node with
  | zero => exact (Option.some.inj found).symm
  | succ height ih =>
      rw [find] at found
      split at found
      · rename_i valid
        exact .inr ⟨_, valid, ih found⟩
      · simp at found

theorem within_of_blank (blank : ∀ i, fmt.valid (mem node i) = false) :
    fmt.Within mem height node other ↔ other = node := by
  cases height with
  | zero => rfl
  | succ height => simp [Within, blank]

theorem tree_of_blank (blank : ∀ i, fmt.valid (mem node i) = false) : fmt.Tree mem height node := by
  cases height with
  | zero => trivial
  | succ height =>
      intro i valid
      simp [blank] at valid

theorem lookup_of_blank (blank : ∀ i, fmt.valid (mem node i) = false) :
    fmt.lookup mem key height node = none := by
  cases height with
  | zero => simp [lookup, find, blank]
  | succ height => simp [lookup, find, blank]

theorem find_key_congr (agree : ∀ k, 0 < k → k ≤ height → key k = path k) :
    fmt.find mem key height node = fmt.find mem path height node := by
  induction height generalizing node with
  | zero => rfl
  | succ height ih =>
      rw [find, find, agree (height + 1) (by omega) (Nat.le_refl _)]
      split
      · exact ih fun k above bound => agree k above (by omega)
      · rfl

theorem lookup_key_congr (agree : ∀ k, k ≤ height → key k = path k) :
    fmt.lookup mem key height node = fmt.lookup mem path height node := by
  rw [lookup, lookup, find_key_congr fun k _ bound => agree k bound, agree 0 (Nat.zero_le _)]

theorem lookup_below {i : Index} (valid : fmt.valid (mem node i) = true) :
    fmt.lookup mem (Function.update key (height + 1) i) (height + 1) node =
      fmt.lookup mem key height (fmt.target (mem node i)) := by
  rw [lookup_succ, Function.update_self, if_pos valid]
  exact lookup_key_congr fun k bound => Function.update_of_ne (by omega) _ _

/-! ### Changes elsewhere -/

theorem within_congr (same : ∀ other, fmt.Within mem height node other → later other = mem other) :
    fmt.Within later height node other ↔ fmt.Within mem height node other := by
  induction height generalizing node with
  | zero => rfl
  | succ height ih =>
      have here := same node (within_self _ _ _)
      simp only [Within, here]
      refine or_congr_right (exists_congr fun i => and_congr_right fun valid => ?_)
      exact ih fun other inside => same other (.inr ⟨i, valid, inside⟩)

theorem find_congr (same : ∀ other, fmt.Within mem height node other → later other = mem other) :
    fmt.find later key height node = fmt.find mem key height node := by
  induction height generalizing node with
  | zero => rfl
  | succ height ih =>
      have here := same node (within_self _ _ _)
      rw [find, find, here]
      split
      · rename_i valid
        exact ih fun other inside => same other (.inr ⟨_, valid, inside⟩)
      · rfl

theorem lookup_congr (same : ∀ other, fmt.Within mem height node other → later other = mem other) :
    fmt.lookup later key height node = fmt.lookup mem key height node := by
  rw [lookup, lookup, find_congr same]
  cases found : fmt.find mem key height node with
  | none => rfl
  | some low =>
      simp only [Option.bind_some]
      rw [same low (within_of_find found)]

theorem Tree.congr (tree : fmt.Tree mem height node)
    (same : ∀ other, fmt.Within mem height node other → later other = mem other) :
    fmt.Tree later height node := by
  induction height generalizing node with
  | zero => trivial
  | succ height ih =>
      have here := same node (within_self _ _ _)
      have below : ∀ i, fmt.valid (mem node i) = true → ∀ other,
          fmt.Within mem height (fmt.target (mem node i)) other → later other = mem other :=
        fun i valid other inside => same other (.inr ⟨i, valid, inside⟩)
      intro i valid
      rw [here] at valid ⊢
      obtain ⟨proper, tree', above, once⟩ := tree i valid
      refine ⟨proper, ih tree' (below i valid), ?_, fun j other valid' inside inside' => ?_⟩
      · rwa [within_congr (below i valid)]
      · exact once j other valid' ((within_congr (below i valid)).mp inside)
          ((within_congr (below j valid')).mp inside')

/-! ### A new value -/

theorem Tree.key_eq (tree : fmt.Tree mem height node)
    (found : fmt.find mem key height node = some low)
    (found' : fmt.find mem path height node = some low) {k : ℕ} (above : 0 < k)
    (bound : k ≤ height) : key k = path k := by
  induction height generalizing node with
  | zero => omega
  | succ height ih =>
      rw [find] at found found'
      split at found
      · rename_i valid
        split at found'
        · rename_i valid'
          obtain ⟨-, tree', -, once⟩ := tree _ valid
          have top : key (height + 1) = path (height + 1) :=
            once _ low valid' (within_of_find found) (within_of_find found')
          rcases Nat.lt_or_ge k (height + 1) with less | last
          · rw [← top] at found'
            exact ih tree' found found' (by omega)
          · rwa [show k = height + 1 by omega]
        · simp at found'
      · simp at found

theorem Tree.write (tree : fmt.Tree mem height node)
    (found : fmt.find mem key height node = some low)
    (same : ∀ other, other ≠ low → later other = mem other) :
    fmt.Tree later height node ∧
      (∀ other, fmt.Within later height node other ↔ fmt.Within mem height node other) ∧
      ∀ path, fmt.find later path height node = fmt.find mem path height node := by
  induction height generalizing node with
  | zero => exact ⟨trivial, fun _ => .rfl, fun _ => rfl⟩
  | succ height ih =>
      rw [find] at found
      split at found
      · rename_i valid
        obtain ⟨-, tree', above, once⟩ := tree _ valid
        have inside := within_of_find found
        have here : later node = mem node := by
          refine same node ?_
          rintro rfl
          exact above inside
        -- the subtree on the way by induction, the others since nothing in them changes
        have below : ∀ i, fmt.valid (mem node i) = true →
            fmt.Tree later height (fmt.target (mem node i)) ∧
              (∀ other, fmt.Within later height (fmt.target (mem node i)) other ↔
                fmt.Within mem height (fmt.target (mem node i)) other) ∧
              ∀ path, fmt.find later path height (fmt.target (mem node i)) =
                fmt.find mem path height (fmt.target (mem node i)) := by
          intro i valid'
          by_cases way : i = key (height + 1)
          · subst way
            exact ih tree' found
          · have kept : ∀ other, fmt.Within mem height (fmt.target (mem node i)) other →
                later other = mem other := by
              intro other inside'
              refine same other ?_
              rintro rfl
              exact way (once i other valid' inside inside').symm
            exact ⟨(tree i valid').2.1.congr kept, fun other => within_congr kept,
              fun path => find_congr kept⟩
        refine ⟨fun i valid' => ?_, fun other => ?_, fun path => ?_⟩
        · rw [here] at valid' ⊢
          obtain ⟨proper, -, above', once'⟩ := tree i valid'
          refine ⟨proper, (below i valid').1, ?_, fun j other valid'' first second => ?_⟩
          · rwa [(below i valid').2.1]
          · exact once' j other valid'' (((below i valid').2.1 _).mp first)
              (((below j valid'').2.1 _).mp second)
        · simp only [Within, here]
          exact or_congr_right (exists_congr fun i => and_congr_right fun valid' =>
            (below i valid').2.1 other)
        · rw [find, find, here]
          split
          · rename_i valid'
            exact (below _ valid').2.2 path
          · rfl
      · simp at found

theorem Tree.lookup_write [DecidableEq Index] (tree : fmt.Tree mem height node)
    (found : fmt.find mem key height node = some low)
    (same : ∀ other, other ≠ low → later other = mem other)
    (others : ∀ i, i ≠ key 0 → later low i = mem low i) :
    fmt.lookup later path height node =
      if ∀ k, k ≤ height → path k = key k then
        if fmt.valid (later low (key 0)) then some (later low (key 0)) else none
      else fmt.lookup mem path height node := by
  have finds := (tree.write found same).2.2
  split
  · rename_i agree
    have way : fmt.find mem path height node = some low := by
      rw [← found]
      exact find_key_congr fun k _ bound => agree k bound
    rw [lookup, finds, way, Option.bind_some, agree 0 (Nat.zero_le _)]
  · rename_i differ
    rw [lookup, lookup, finds]
    cases way : fmt.find mem path height node with
    | none => rfl
    | some other =>
        have kept : later other (path 0) = mem other (path 0) := by
          by_cases here : other = low
          · subst other
            refine others _ fun last => differ fun k bound => ?_
            rcases Nat.eq_zero_or_pos k with rfl | above
            · exact last
            · exact tree.key_eq way found above bound
          · rw [same other here]
        rw [Option.bind_some, Option.bind_some, kept]

/-! ### A new branch -/

theorem Tree.graft (tree : fmt.Tree mem (height + 1) node) {i : Index}
    (proper : fmt.proper (later node i))
    (others : ∀ j, j ≠ i → later node j = mem node j)
    (branch : fmt.Tree later height (fmt.target (later node i)))
    (above : ¬ fmt.Within later height (fmt.target (later node i)) node)
    (apart : ∀ j, j ≠ i → fmt.valid (mem node j) = true → ∀ other,
      fmt.Within mem height (fmt.target (mem node j)) other →
        later other = mem other ∧ ¬ fmt.Within later height (fmt.target (later node i)) other) :
    fmt.Tree later (height + 1) node := by
  have kept : ∀ j, j ≠ i → fmt.valid (mem node j) = true → ∀ other,
      fmt.Within later height (fmt.target (mem node j)) other ↔
        fmt.Within mem height (fmt.target (mem node j)) other := by
    intro j differs valid' other
    exact within_congr fun other inside => (apart j differs valid' other inside).1
  intro j valid'
  by_cases here : j = i
  · subst j
    refine ⟨proper, branch, above, fun k other valid'' first second => ?_⟩
    by_cases same : k = i
    · exact same.symm
    · rw [others k same] at valid'' second
      exact absurd first (apart k same valid'' other ((kept k same valid'' other).mp second)).2
  · rw [others j here] at valid' ⊢
    obtain ⟨proper', tree', above', once⟩ := tree j valid'
    refine ⟨proper', tree'.congr fun other inside => (apart j here valid' other inside).1, ?_,
      fun k other valid'' first second => ?_⟩
    · rwa [kept j here valid']
    · have first' := (kept j here valid' other).mp first
      by_cases same : k = i
      · subst k
        exact absurd second (apart j here valid' other first').2
      · rw [others k same] at valid'' second
        exact once k other valid'' first' ((kept k same valid'' other).mp second)

theorem within_graft {i : Index} (valid : fmt.valid (later node i) = true)
    (others : ∀ j, j ≠ i → later node j = mem node j)
    (kept : ∀ j, j ≠ i → fmt.valid (mem node j) = true → ∀ other,
      fmt.Within mem height (fmt.target (mem node j)) other → later other = mem other) :
    fmt.Within later (height + 1) node other ↔ other = node ∨
      fmt.Within later height (fmt.target (later node i)) other ∨
      ∃ j, j ≠ i ∧ fmt.valid (mem node j) = true ∧
        fmt.Within mem height (fmt.target (mem node j)) other := by
  refine or_congr_right ⟨fun ⟨j, valid', inside⟩ => ?_, ?_⟩
  · by_cases here : j = i
    · subst j
      exact .inl inside
    · rw [others j here] at valid' inside
      exact .inr ⟨j, here, valid', (within_congr (kept j here valid')).mp inside⟩
  · rintro (inside | ⟨j, here, valid', inside⟩)
    · exact ⟨i, valid, inside⟩
    · refine ⟨j, ?_⟩
      rw [others j here]
      exact ⟨valid', (within_congr (kept j here valid')).mpr inside⟩

theorem Tree.prune (tree : fmt.Tree mem (height + 1) node) {i : Index}
    (invalid : fmt.valid (later node i) = false)
    (others : ∀ j, j ≠ i → later node j = mem node j)
    (kept : ∀ j, j ≠ i → fmt.valid (mem node j) = true → ∀ other,
      fmt.Within mem height (fmt.target (mem node j)) other → later other = mem other) :
    fmt.Tree later (height + 1) node := by
  intro j valid
  have differs : j ≠ i := by
    rintro rfl
    simp [invalid] at valid
  rw [others j differs] at valid ⊢
  obtain ⟨proper, tree', above, once⟩ := tree j valid
  refine ⟨proper, tree'.congr (kept j differs valid), ?_, fun k other valid' first second => ?_⟩
  · rwa [within_congr (kept j differs valid)]
  · have differs' : k ≠ i := by
      rintro rfl
      simp [invalid] at valid'
    rw [others k differs'] at valid' second
    exact once k other valid' ((within_congr (kept j differs valid)).mp first)
      ((within_congr (kept k differs' valid')).mp second)

theorem within_prune {i : Index} (invalid : fmt.valid (later node i) = false)
    (others : ∀ j, j ≠ i → later node j = mem node j)
    (kept : ∀ j, j ≠ i → fmt.valid (mem node j) = true → ∀ other,
      fmt.Within mem height (fmt.target (mem node j)) other → later other = mem other) :
    fmt.Within later (height + 1) node other ↔ other = node ∨
      ∃ j, j ≠ i ∧ fmt.valid (mem node j) = true ∧
        fmt.Within mem height (fmt.target (mem node j)) other := by
  refine or_congr_right (exists_congr fun j => ?_)
  by_cases here : j = i
  · subst j
    simp [invalid]
  · rw [others j here]
    simp only [here, ne_eq, not_false_eq_true, true_and]
    exact and_congr_right fun valid => within_congr (kept j here valid)

end RadixFormat

end OsLab.Library
