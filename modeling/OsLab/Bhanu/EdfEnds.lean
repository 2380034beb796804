import OsLab.Bhanu.EdfDispatch
import OsLab.Library.Selective

/-!
When `run_edf` ends. The search for the earliest deadline starts at 100000, so a process whose
deadline is no earlier is never selected and the loop waits for it forever.
-/

namespace OsLab.Bhanu.Edf

open OsLab.Library

variable {np cpus : ℕ} {jobs : Fin np → Process}

def Near (process : Process) : Prop := process.deadline < 100000

instance : DecidablePred Near := fun _ => inferInstanceAs (Decidable (_ < _))

theorem selective (jobs : Fin np → Process) :
    (layout np cpus).Selective Near (fun x => (jobs x).arrivalTime) assigned execute clockCycle tick
      fun s => (∀ x, (s.p x).arrivalTime = (jobs x).arrivalTime) ∧
        ∀ x, (s.p x).deadline = (jobs x).deadline := by
  have able : ∀ s : Sim np cpus, (∀ x, (s.p x).deadline = (jobs x).deadline) →
      (layout np cpus).Able Near (fun x => (jobs x).arrivalTime) s = Selectable jobs s.cycle := by
    intro s same
    funext x
    simp [Layout.Able, Selectable, Arrived, layout, Near, same]
  have visits : ∀ s : Sim np cpus, (∀ x, (s.p x).arrivalTime = (jobs x).arrivalTime) ∧
      (∀ x, (s.p x).deadline = (jobs x).deadline) →
      Visits (Selectable jobs s.cycle) (fun x => (jobs x).deadline) (List.finRange cpus) s
        (assigned s) :=
    fun s same => assign_visits (List.finRange cpus) rfl same.1 same.2
  have reached : ∀ s : Sim np cpus, (∀ x, (s.p x).arrivalTime = (jobs x).arrivalTime) ∧
      (∀ x, (s.p x).deadline = (jobs x).deadline) →
      (machine s).Placed (Selectable jobs s.cycle) →
      (machine (assigned s)).Dispatched (Selectable jobs s.cycle) fun x => (jobs x).deadline :=
    fun s same placed => (visits s same).pass.dispatched placed
  constructor
  · intro s same placed
    rw [able s same.2] at placed ⊢
    exact (reached s same placed).placed
  · intro s same placed i idle x waits
    rw [able s same.2] at placed waits
    exact (reached s same placed).conserving i idle x waits
  · intro s same placed
    rw [able s same.2] at placed
    obtain ⟨cycle, finished, unmoved⟩ := (visits s same).unmoved
    constructor
    · exact cycle
    · exact finished
    · exact fun x => (unmoved x).remaining
    · exact fun x => (unmoved x).completion
    · exact (visits s same).pass.finished placed
  · intro s same x
    have deadline := ((visits s same).unmoved.2.2 x).deadline
    simp only [Near, layout, deadline]
  · exact execute_serves
  · intro s i idle
    rw [execute_none idle]
  · intro now s i x same here alive
    have held : (s.cpu i).currentProcessId = some x := here
    have time : s.cycle = now := same
    have unfinished : (s.p x).state ≠ .finished := by simpa [layout] using alive
    simp only [layout, State.status_finished, tick_finished unfinished]
    exact (execute_tick held).2.2.2
  · intro now p c running
    exact tick_ran now c (by simpa [layout] using running) cpus
  · intro now p c
    rw [Near, Near, (tick_carried now p c).deadline]
  · exact fun _ => rfl
  · exact fun _ => rfl
  · exact fun _ => rfl
  · exact fun _ => rfl
  · intro s same placed
    have unmoved := (visits s same).unmoved
    have carried : ∀ x, Carried ((assigned s).p x) ((clockCycle s).p x) :=
      carried_foldl (execute_serves s.cycle) (tick_carried s.cycle) _ unmoved.1
    constructor
    · intro x
      rw [(carried x).arrival, (unmoved.2.2 x).arrival, same.1]
    · intro x
      rw [(carried x).deadline, (unmoved.2.2 x).deadline, same.2]

/-- The loop ends with every process FINISHED exactly when every deadline is below the initial
`earliest`. -/
theorem runEdf_ends_iff (fresh : ∀ x, Fresh (jobs x)) (arrival : ∀ x, 0 ≤ (jobs x).arrivalTime)
    (processors : 0 < cpus) :
    (∃ fuel p, runEdf fuel jobs cpus = some p ∧ ∀ x, (p x).state = .finished) ↔
      ∀ x, (jobs x).deadline < 100000 := by
  have loop : (layout np cpus).Selective _ _ _ _ _ _ _ := selective jobs
  have ends : (∃ fuel final, whileLoop (fun sim : Sim np cpus => sim.finished < np) clockCycle fuel
      (start cpus jobs) = some final ∧ ∀ x, (final.p x).state.status = .finished) ↔
      ∀ x, Near (jobs x) := by
    apply @Layout.Selective.ends_iff _ _ _ _ _ _ _ _ _ _ _ _ _ _ _ _ (start cpus jobs)
      (fun x => (jobs x).burstTime) loop
    · exact ⟨fun _ => rfl, fun _ => rfl⟩
    · rfl
    · rfl
    · exact fun _ => rfl
    · exact fun x => State.status_ready.mpr (fresh x).ready
    · exact fun x => (fresh x).remaining
    · exact fun x => (fresh x).burst
    · exact arrival
    · exact Fintype.card_fin np
    · exact processors
  refine Iff.trans ?_ ends
  simp only [runEdf, Option.map_eq_some_iff]
  constructor
  · rintro ⟨fuel, p, ⟨final, ended, rfl⟩, finished⟩
    exact ⟨fuel, final, ended, fun x => State.status_finished.mpr (finished x)⟩
  · rintro ⟨fuel, final, ended, finished⟩
    exact ⟨fuel, final.p, ⟨final, ended, rfl⟩, fun x => State.status_finished.mp (finished x)⟩

end OsLab.Bhanu.Edf
