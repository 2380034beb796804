import Mathlib.Computability.Language

/-!
`match` of `grep.c` for the operators `^ . * $`. A pattern denotes a language, built with
concatenation and Kleene's star, and `match` decides it.
-/

namespace OsLab.User.Grep

open scoped Computability

def newline : UInt8 := 10
def dollar : UInt8 := 36
def star : UInt8 := 42
def dot : UInt8 := 46
def caret : UInt8 := 94

/-- Strings are without their NUL. `here` is `matchhere` of what follows the star. -/
def matchstar (here : List UInt8 → Bool) (c : UInt8) : List UInt8 → Bool
  | [] => here []
  | t :: text => here (t :: text) || ((t = c || c = dot) && matchstar here c text)

def matchhere : List UInt8 → List UInt8 → Bool
  | [], _ => true
  | [r], text =>
      if r = dollar then text.isEmpty
      else match text with
      | [] => false
      | t :: text => (r = dot || r = t) && matchhere [] text
  | r :: s :: re, text =>
      if s = star then matchstar (matchhere re) r text
      else match text with
      | [] => false
      | t :: text => (r = dot || r = t) && matchhere (s :: re) text

/-- The loop of `match`, which looks at the empty string too. -/
def anywhere (here : List UInt8 → Bool) : List UInt8 → Bool
  | [] => here []
  | t :: text => here (t :: text) || anywhere here text

/-- `match` -/
def matchText (re text : List UInt8) : Bool :=
  match re with
  | [] => anywhere (matchhere []) text
  | r :: rest => if r = caret then matchhere rest text else anywhere (matchhere (r :: rest)) text

/-! ### The language of a pattern -/

/-- What one character of a pattern stands for. -/
def single (c : UInt8) : Language UInt8 := {text | ∃ t, text = [t] ∧ (t = c ∨ c = dot)}

def language : List UInt8 → Language UInt8
  | [] => ⊤
  | [r] => if r = dollar then 1 else single r * ⊤
  | r :: s :: re => if s = star then (single r)∗ * language re else single r * language (s :: re)

def found : List UInt8 → Language UInt8
  | [] => ⊤
  | r :: rest => if r = caret then language rest else ⊤ * language (r :: rest)

section Operators

variable {here : List UInt8 → Bool} {L : Language UInt8} {c t : UInt8} {text : List UInt8}

theorem mem_top (text : List UInt8) : text ∈ (⊤ : Language UInt8) := trivial

theorem nil_mem_single_mul : ([] : List UInt8) ∉ single c * L := by
  rw [Language.mem_mul]
  rintro ⟨a, ⟨t, rfl, -⟩, b, -, whole⟩
  cases whole

theorem cons_mem_single_mul : t :: text ∈ single c * L ↔ (t = c ∨ c = dot) ∧ text ∈ L := by
  rw [Language.mem_mul]
  constructor
  · rintro ⟨a, ⟨u, rfl, fits⟩, b, rest, whole⟩
    obtain ⟨rfl, rfl⟩ := List.cons.inj whole
    exact ⟨fits, rest⟩
  · rintro ⟨fits, rest⟩
    exact ⟨[t], ⟨t, rfl, fits⟩, text, rest, rfl⟩

theorem mem_star_mul : text ∈ (single c)∗ * L ↔ text ∈ L ∨ text ∈ single c * ((single c)∗ * L) := by
  conv_lhs => rw [← Language.one_add_self_mul_kstar_eq_kstar, add_mul, one_mul, mul_assoc]
  exact Language.mem_add ..

theorem nil_mem_top_mul : [] ∈ (⊤ : Language UInt8) * L ↔ [] ∈ L := by
  rw [Language.mem_mul]
  constructor
  · rintro ⟨a, -, b, rest, whole⟩
    obtain ⟨-, rfl⟩ := List.append_eq_nil_iff.mp whole
    exact rest
  · exact fun member => ⟨[], mem_top [], [], member, rfl⟩

theorem cons_mem_top_mul : t :: text ∈ (⊤ : Language UInt8) * L ↔
    t :: text ∈ L ∨ text ∈ (⊤ : Language UInt8) * L := by
  simp only [Language.mem_mul]
  constructor
  · rintro ⟨a, -, b, rest, whole⟩
    cases a with
    | nil =>
        rw [List.nil_append] at whole
        exact .inl (whole ▸ rest)
    | cons u a => exact .inr ⟨a, mem_top a, b, rest, (List.cons.inj whole).2⟩
  · rintro (rest | ⟨a, -, b, rest, whole⟩)
    · exact ⟨[], mem_top [], t :: text, rest, rfl⟩
    · exact ⟨t :: a, mem_top _, b, rest, by rw [List.cons_append, whole]⟩

theorem fits_iff : (decide (c = dot) || decide (c = t)) = true ↔ t = c ∨ c = dot := by
  rw [Bool.or_eq_true, decide_eq_true_iff, decide_eq_true_iff, or_comm]
  exact or_congr_left eq_comm

theorem matchstar_iff (meaning : ∀ text, here text = true ↔ text ∈ L) :
    matchstar here c text = true ↔ text ∈ (single c)∗ * L := by
  induction text with
  | nil =>
      rw [matchstar, meaning, mem_star_mul]
      exact (or_iff_left nil_mem_single_mul).symm
  | cons t text ih =>
      rw [matchstar, mem_star_mul, cons_mem_single_mul, Bool.or_eq_true, Bool.and_eq_true, ih,
        meaning]
      simp

theorem anywhere_iff (meaning : ∀ text, here text = true ↔ text ∈ L) :
    anywhere here text = true ↔ text ∈ ⊤ * L := by
  induction text with
  | nil => rw [anywhere, meaning, nil_mem_top_mul]
  | cons t text ih => rw [anywhere, cons_mem_top_mul, Bool.or_eq_true, ih, meaning]

end Operators

theorem matchhere_iff : (re text : List UInt8) →
    (matchhere re text = true ↔ text ∈ language re)
  | [], text => by simp [matchhere, language, mem_top]
  | [r], text => by
      rw [matchhere.eq_def, language]
      dsimp only
      split
      · rw [Language.mem_one, List.isEmpty_iff]
      · cases text with
        | nil => simp [nil_mem_single_mul]
        | cons t text =>
            rw [cons_mem_single_mul, Bool.and_eq_true, fits_iff, matchhere]
            exact and_congr_right fun _ => iff_of_true rfl (mem_top text)
  | r :: s :: re, text => by
      have next := matchhere_iff (s :: re)
      rw [matchhere.eq_def, language]
      dsimp only
      split
      · exact matchstar_iff (matchhere_iff re)
      · cases text with
        | nil => simp [nil_mem_single_mul]
        | cons t text =>
            rw [cons_mem_single_mul, Bool.and_eq_true, fits_iff, next]

theorem matchText_iff (re text : List UInt8) : matchText re text = true ↔ text ∈ found re := by
  cases re with
  | nil =>
      rw [matchText, found, anywhere_iff (matchhere_iff [])]
      exact iff_of_true ⟨[], mem_top [], text, mem_top text, rfl⟩ (mem_top text)
  | cons r rest =>
      rw [matchText, found]
      split
      · exact matchhere_iff rest text
      · exact anywhere_iff (matchhere_iff (r :: rest))

instance (re text : List UInt8) : Decidable (text ∈ found re) :=
  decidable_of_iff _ (matchText_iff re text)

end OsLab.User.Grep
