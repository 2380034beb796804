import Mathlib.Data.List.Nodup
import Mathlib.Logic.Function.Basic

/-!
A doubly linked ring through a fixed element, its head. The links spell out a list, forwards and
backwards; an element can be taken out where it is and put in behind the head, and a search along
the links is a search of the list.
-/

namespace OsLab.Library

variable {α : Type*} {f : α → α} {head b z : α} {list front back : List α}

/-- The links from `a` go through the list to `z`. -/
def Leads (f : α → α) : α → List α → α → Prop
  | a, [], z => f a = z
  | a, b :: rest, z => f a = b ∧ Leads f b rest z

namespace Leads

variable {a : α}

theorem append_iff : Leads f a (front ++ b :: back) z ↔ Leads f a front b ∧ Leads f b back z := by
  induction front generalizing a with
  | nil => rfl
  | cons c front ih => simp only [List.cons_append, Leads, ih, and_assoc]

theorem first (leads : Leads f a list z) : (list ++ [z]).head? = some (f a) := by
  cases list with
  | nil => exact congrArg some leads.symm
  | cons c rest => exact congrArg some leads.1.symm

variable [DecidableEq α]

theorem frame (leads : Leads f a list z) {c : α} (outside : c ∉ a :: list) (v : α) :
    Leads (Function.update f c v) a list z := by
  induction list generalizing a with
  | nil =>
      have other : a ≠ c := fun same => outside (by simp [same])
      exact (Function.update_of_ne other ..).trans leads
  | cons d rest ih =>
      have other : a ≠ c := fun same => outside (by simp [same])
      exact ⟨(Function.update_of_ne other ..).trans leads.1,
        ih leads.2 fun member => outside (List.mem_cons_of_mem _ member)⟩

theorem turn (leads : Leads f a list z) (nodup : (a :: list).Nodup) {last : α}
    (ends : (a :: list).getLast? = some last) (v : α) :
    Leads (Function.update f last v) a list v := by
  induction list generalizing a with
  | nil =>
      obtain rfl : a = last := by simpa using ends
      exact Function.update_self ..
  | cons c rest ih =>
      obtain ⟨fresh, nodup⟩ := List.nodup_cons.mp nodup
      rw [List.getLast?_cons_cons] at ends
      have other : a ≠ last := by
        rintro rfl
        exact fresh (List.mem_of_getLast? ends)
      exact ⟨(Function.update_of_ne other ..).trans leads.1, ih leads.2 nodup ends⟩

theorem bypass (leads : Leads f head (front ++ b :: back) head)
    (nodup : (head :: (front ++ b :: back)).Nodup) {last : α}
    (ends : (head :: front).getLast? = some last) :
    Leads (Function.update f last (f b)) head (front ++ back) head := by
  obtain ⟨before, after⟩ := append_iff.mp leads
  have apart : (head :: front).Nodup := nodup.sublist (by simp)
  cases back with
  | nil =>
      rw [List.append_nil, show f b = head from after]
      exact before.turn apart ends head
  | cons c back =>
      obtain ⟨link, rest⟩ := after
      rw [link]
      refine append_iff.mpr ⟨before.turn apart ends c, rest.frame (fun member => ?_) c⟩
      have inside := List.mem_of_getLast? ends
      rw [← List.cons_append, List.nodup_append] at nodup
      exact nodup.2.2 _ inside _ (List.mem_cons_of_mem _ member) rfl

theorem push (leads : Leads f head list head) (nodup : (head :: list).Nodup)
    (fresh : b ∉ head :: list) :
    Leads (Function.update (Function.update f b (f head)) head b) head (b :: list) head := by
  have apart : b ≠ head := fun same => fresh (by simp [same])
  refine ⟨Function.update_self .., ?_⟩
  cases list with
  | nil =>
      refine (Function.update_of_ne apart ..).trans ((Function.update_self ..).trans leads)
  | cons c rest =>
      refine ⟨(Function.update_of_ne apart ..).trans ((Function.update_self ..).trans leads.1), ?_⟩
      have outside : b ∉ c :: rest := fun member => fresh (List.mem_cons_of_mem _ member)
      exact (leads.2.frame outside _).frame (List.nodup_cons.mp nodup).1 _

theorem pushLast (leads : Leads f head list head) (nodup : (head :: list).Nodup)
    (fresh : b ∉ head :: list) {last : α} (ends : (head :: list).getLast? = some last) :
    Leads (Function.update (Function.update f b head) last b) head (list ++ [b]) head := by
  have member := List.mem_of_getLast? ends
  have apart : b ≠ last := fun same => fresh (same ▸ member)
  refine append_iff.mpr ⟨(leads.frame fresh _).turn nodup ends b, ?_⟩
  exact (Function.update_of_ne apart ..).trans (Function.update_self ..)

end Leads

structure Links (α : Type*) where
  next : α → α
  prev : α → α

namespace Links

/-- Along the links from an element on, the first that passes the test. -/
def search [DecidableEq α] (link : α → α) (head : α) (test : α → Bool) : ℕ → α → Option α
  | 0, _ => none
  | fuel + 1, b =>
      if b = head then none
      else if test b then some b
      else search link head test fuel (link b)

structure Ring (links : Links α) (head : α) (list : List α) : Prop where
  next : Leads links.next head list head
  prev : Leads links.prev head list.reverse head
  nodup : (head :: list).Nodup

variable {links : Links α}

theorem Ring.empty (head : α) : Ring ⟨fun _ => head, fun _ => head⟩ head [] :=
  ⟨rfl, rfl, List.nodup_singleton head⟩

theorem nodup_reverse (nodup : (head :: list).Nodup) : (head :: list.reverse).Nodup := by
  obtain ⟨fresh, rest⟩ := List.nodup_cons.mp nodup
  exact List.nodup_cons.mpr ⟨fun member => fresh (List.mem_reverse.mp member),
    List.nodup_reverse.mpr rest⟩

theorem reverse_split (front back : List α) (b : α) :
    (front ++ b :: back).reverse = back.reverse ++ b :: front.reverse := by simp

theorem Ring.getLast (ring : Ring links head (front ++ b :: back)) :
    (head :: front).getLast? = some (links.prev b) ∧
      (head :: back.reverse).getLast? = some (links.next b) := by
  have forward := (Leads.append_iff.mp ring.next).2.first
  have backward := (Leads.append_iff.mp (reverse_split front back b ▸ ring.prev)).2.first
  constructor
  · rw [← backward, ← List.head?_reverse, List.reverse_cons]
  · rw [← forward, ← List.head?_reverse, List.reverse_cons, List.reverse_reverse]

variable [DecidableEq α]

def unlink (links : Links α) (b : α) : Links α where
  next := Function.update links.next (links.prev b) (links.next b)
  prev := Function.update links.prev (links.next b) (links.prev b)

def insert (links : Links α) (head b : α) : Links α where
  next := Function.update (Function.update links.next b (links.next head)) head b
  prev := Function.update (Function.update links.prev b head) (links.next head) b

theorem Ring.unlink (ring : Ring links head (front ++ b :: back)) :
    Ring (links.unlink b) head (front ++ back) := by
  obtain ⟨before, after⟩ := ring.getLast
  have backward := reverse_split front back b ▸ ring.prev
  have nodup := reverse_split front back b ▸ nodup_reverse ring.nodup
  refine ⟨ring.next.bypass ring.nodup before, ?_, ring.nodup.sublist (by simp)⟩
  rw [List.reverse_append]
  exact backward.bypass nodup after

theorem Ring.insert (ring : Ring links head list) (fresh : b ∉ head :: list) :
    Ring (links.insert head b) head (b :: list) := by
  have ends : (head :: list.reverse).getLast? = some (links.next head) := by
    rw [← ring.next.first, ← List.head?_reverse, List.reverse_cons, List.reverse_reverse]
  obtain ⟨outside, rest⟩ := List.nodup_cons.mp ring.nodup
  rw [List.mem_cons, not_or] at fresh
  obtain ⟨apart, unlisted⟩ := fresh
  refine ⟨ring.next.push ring.nodup (by simp [apart, unlisted]), ?_,
    List.nodup_cons.mpr ⟨by simp [Ne.symm apart, outside], rest.cons unlisted⟩⟩
  rw [List.reverse_cons]
  exact ring.prev.pushLast (nodup_reverse ring.nodup) (by simp [apart, unlisted]) ends

theorem search_eq_find? {link : α → α} {a : α} (leads : Leads link a list head)
    (nodup : head ∉ list) (test : α → Bool) {fuel : ℕ} (enough : list.length < fuel) :
    search link head test fuel (link a) = list.find? test := by
  induction list generalizing a fuel with
  | nil =>
      obtain ⟨fuel, rfl⟩ := Nat.exists_eq_succ_of_ne_zero (Nat.ne_of_gt enough)
      rw [search, if_pos (show link a = head from leads)]
      rfl
  | cons b rest ih =>
      obtain ⟨fuel, rfl⟩ := Nat.exists_eq_succ_of_ne_zero (Nat.ne_of_gt (Nat.zero_lt_of_lt enough))
      rw [List.mem_cons, not_or] at nodup
      obtain ⟨other, outside⟩ := nodup
      rw [search, leads.1, if_neg (Ne.symm other), List.find?_cons]
      split
      · rename_i passes
        rw [passes]
      · rename_i fails
        rw [ih leads.2 outside (Nat.lt_of_succ_lt_succ enough), Bool.eq_false_iff.mpr fails]

theorem Ring.search_next (ring : Ring links head list) (test : α → Bool) {fuel : ℕ}
    (enough : list.length < fuel) :
    search links.next head test fuel (links.next head) = list.find? test :=
  search_eq_find? ring.next (List.nodup_cons.mp ring.nodup).1 test enough

theorem Ring.search_prev (ring : Ring links head list) (test : α → Bool) {fuel : ℕ}
    (enough : list.length < fuel) :
    search links.prev head test fuel (links.prev head) = list.reverse.find? test :=
  search_eq_find? ring.prev (List.nodup_cons.mp (nodup_reverse ring.nodup)).1 test
    (by rwa [List.length_reverse])

end Links

end OsLab.Library
