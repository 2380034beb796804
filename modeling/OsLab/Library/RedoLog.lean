import Mathlib.Data.List.Nodup
import Mathlib.Logic.Function.Basic

/-!
Redo logs: a list of writes that is replayed over a disk. Where every address is written once,
a disk on which some of the writes have been made already comes out the same.
-/

namespace OsLab.Library

variable {α β : Type*} [DecidableEq α]

def replay (writes : List (α × β)) (disk : α → β) : α → β :=
  writes.foldl (fun disk write => Function.update disk write.1 write.2) disk

theorem replay_cons (a : α) (v : β) (writes : List (α × β)) (disk : α → β) :
    replay ((a, v) :: writes) disk = replay writes (Function.update disk a v) := rfl

theorem replay_of_notMem {writes : List (α × β)} {a : α} (outside : a ∉ writes.map Prod.fst)
    (disk : α → β) : replay writes disk a = disk a := by
  induction writes generalizing disk with
  | nil => rfl
  | cons write writes ih =>
      obtain ⟨b, v⟩ := write
      simp only [List.map_cons, List.mem_cons, not_or] at outside
      rw [replay_cons, ih outside.2, Function.update_of_ne outside.1]

theorem replay_of_mem {writes : List (α × β)} (once : (writes.map Prod.fst).Nodup) {a : α} {v : β}
    (member : (a, v) ∈ writes) (disk : α → β) : replay writes disk a = v := by
  induction writes generalizing disk with
  | nil => simp at member
  | cons write writes ih =>
      obtain ⟨b, w⟩ := write
      obtain ⟨fresh, once'⟩ := List.nodup_cons.mp once
      rw [replay_cons]
      rcases List.mem_cons.mp member with same | later
      · obtain ⟨rfl, rfl⟩ := Prod.mk.inj same
        rw [replay_of_notMem fresh, Function.update_self]
      · exact ih once' later _

/-- A write that the log holds may have been made before. -/
theorem replay_update {writes : List (α × β)} (once : (writes.map Prod.fst).Nodup) {a : α} {v : β}
    (member : (a, v) ∈ writes) (disk : α → β) :
    replay writes (Function.update disk a v) = replay writes disk := by
  funext b
  by_cases logged : b ∈ writes.map Prod.fst
  · obtain ⟨⟨b, w⟩, inside, rfl⟩ := List.mem_map.mp logged
    rw [replay_of_mem once inside, replay_of_mem once inside]
  · rw [replay_of_notMem logged, replay_of_notMem logged, Function.update_of_ne]
    rintro rfl
    exact logged (List.mem_map_of_mem member)

theorem replay_of_done {writes : List (α × β)} (once : (writes.map Prod.fst).Nodup)
    {disk : α → β} (done : ∀ a v, (a, v) ∈ writes → disk a = v) : replay writes disk = disk := by
  funext b
  by_cases logged : b ∈ writes.map Prod.fst
  · obtain ⟨⟨b, w⟩, inside, rfl⟩ := List.mem_map.mp logged
    rw [replay_of_mem once inside]
    exact (done _ _ inside).symm
  · exact replay_of_notMem logged disk

end OsLab.Library
