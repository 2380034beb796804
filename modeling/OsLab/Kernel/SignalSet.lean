import OsLab.Kernel.Signal
import OsLab.Library.BitSet
import Mathlib.Data.Finset.Max
import Mathlib.Data.List.Pairwise

/-!
`pending_signals` as a set. The mask has 64 bits and is driven by 32-bit shifts, so that
signal 31 stands for its upper 33 bits. `kkill`, `sys_signal` and the delivery loop of
`usertrap` are each one step here.
-/

namespace OsLab.Kernel.Signal

open OsLab.Library

/-- The mask in which exactly the signals of `S` are pending. -/
def mask (S : Finset (Fin NSIG)) : UInt64 := ⟨(word S).signExtend 64⟩

section Mask

variable (S : Finset (Fin NSIG)) (i : Fin NSIG)

theorem mask_eq_zero : mask S = 0 ↔ S = ∅ := by
  rw [← UInt64.toBitVec_inj]
  change (word S).signExtend 64 = 0 ↔ S = ∅
  rw [signExtend_eq_zero (by decide)]
  exact ⟨fun zero => word_injective (zero.trans word_empty.symm), fun empty => empty ▸ word_empty⟩

theorem mask_empty : mask ∅ = 0 := (mask_eq_zero ∅).mpr rfl

theorem mask_insert : mask (insert i S) = mask S ||| signalBit i := by
  apply UInt64.toBitVec_inj.mp
  change (word (insert i S)).signExtend 64 =
    (word S).signExtend 64 ||| (BitVec.twoPow NSIG i).signExtend 64
  rw [word_insert, BitVec.signExtend_or]

theorem mask_erase : mask (S.erase i) = mask S &&& ~~~ signalBit i := by
  apply UInt64.toBitVec_inj.mp
  change (word (S.erase i)).signExtend 64 =
    (word S).signExtend 64 &&& ~~~ (BitVec.twoPow NSIG i).signExtend 64
  rw [word_erase, BitVec.signExtend_and, BitVec.signExtend_not (by decide)]

theorem mask_and : mask S &&& signalBit i = 0 ↔ i ∉ S := by
  rw [← UInt64.toBitVec_inj]
  change (word S).signExtend 64 &&& (BitVec.twoPow NSIG i).signExtend 64 = 0 ↔ i ∉ S
  rw [← BitVec.signExtend_and, signExtend_eq_zero (by decide)]
  exact word_and_twoPow S i

theorem mask_pos : mask S > 0 ↔ S.Nonempty := by
  rw [Finset.nonempty_iff_ne_empty, Ne, ← mask_eq_zero, ← UInt64.toNat_inj, gt_iff_lt,
    UInt64.lt_iff_toNat_lt]
  exact Nat.pos_iff_ne_zero

theorem mask_injective : Function.Injective mask := by
  intro S T same
  ext i
  have bit := mask_and S i
  rw [same, mask_and T i] at bit
  exact not_iff_not.mp bit.symm

end Mask

/-! ### `trap.c` -/

def Proc.deliverLoop (proc : Proc) : List (Fin NSIG) → Proc
  | [] => proc
  | i :: rest =>
      if proc.pendingSignals &&& signalBit i = 0 then proc.deliverLoop rest
      else if proc.signalHandlers i = SIG_IGN then (proc.clear i).deliverLoop rest
      else if proc.signalHandlers i = SIG_DFL then proc.setKilled
      else proc.enter i

def Proc.deliver (proc : Proc) : Proc :=
  if proc.pendingSignals > 0 ∧ proc.isHandlingSignal = false then
    proc.deliverLoop (List.finRange NSIG)
  else proc

structure Least (S : Finset (Fin NSIG)) (proc : Proc) (s : Fin NSIG) : Prop where
  pending : s ∈ S
  heeded : proc.signalHandlers s ≠ SIG_IGN
  least : ∀ i ∈ S, proc.signalHandlers i ≠ SIG_IGN → s ≤ i

def passed (S : Finset (Fin NSIG)) (proc : Proc) (s : Fin NSIG) : Finset (Fin NSIG) :=
  S.filter fun i => ¬ (i < s ∧ proc.signalHandlers i = SIG_IGN)

/-- What a delivery makes of a process whose pending signals are `S`. -/
inductive Delivered (S : Finset (Fin NSIG)) (proc : Proc) : Proc → Prop
  | ignored : (∀ i ∈ S, proc.signalHandlers i = SIG_IGN) →
      Delivered S proc { proc with pendingSignals := 0 }
  | killed (s : Fin NSIG) : Least S proc s → proc.signalHandlers s = SIG_DFL →
      Delivered S proc { proc with
        pendingSignals := mask (passed S proc s)
        killed := true }
  | handled (s : Fin NSIG) : Least S proc s → proc.signalHandlers s ≠ SIG_DFL →
      Delivered S proc { proc with
        pendingSignals := mask ((passed S proc s).erase s)
        sigTf := proc.trapframe
        isHandlingSignal := true
        trapframe := { proc.trapframe with epc := proc.signalHandlers s, a0 := .ofNat s } }

def Proc.stop (proc : Proc) (s : Fin NSIG) : Proc :=
  if proc.signalHandlers s = SIG_DFL then proc.setKilled else proc.enter s

def Proc.withMask (proc : Proc) (S : Finset (Fin NSIG)) : Proc :=
  { proc with pendingSignals := mask S }

theorem withMask_self {proc : Proc} {S : Finset (Fin NSIG)}
    (encoded : proc.pendingSignals = mask S) : proc.withMask S = proc := by
  rw [Proc.withMask, ← encoded]

theorem clear_eq {proc : Proc} {S : Finset (Fin NSIG)} (encoded : proc.pendingSignals = mask S)
    (i : Fin NSIG) : proc.clear i = proc.withMask (S.erase i) := by
  rw [Proc.clear, Proc.withMask, encoded, mask_erase]

section Loop

variable {proc : Proc} {S : Finset (Fin NSIG)} {i : Fin NSIG}

theorem deliverLoop_skip (encoded : proc.pendingSignals = mask S)
    (skipped : i ∈ S → proc.signalHandlers i = SIG_IGN) (rest : List (Fin NSIG)) :
    proc.deliverLoop (i :: rest) = (proc.withMask (S.erase i)).deliverLoop rest := by
  rw [Proc.deliverLoop]
  by_cases present : i ∈ S
  · rw [if_neg (by rw [encoded, mask_and]; simpa using present), if_pos (skipped present),
      clear_eq encoded]
  · rw [if_pos (by rw [encoded, mask_and]; exact present), Finset.erase_eq_of_notMem present,
      withMask_self encoded]

theorem deliverLoop_stop (encoded : proc.pendingSignals = mask S) (present : i ∈ S)
    (heeded : proc.signalHandlers i ≠ SIG_IGN) (rest : List (Fin NSIG)) :
    proc.deliverLoop (i :: rest) = proc.stop i := by
  rw [Proc.deliverLoop, if_neg (by rw [encoded, mask_and]; simpa using present), if_neg heeded,
    Proc.stop]

/-- The loop over ascending signals: either all pending ones are ignored and cleared, or it
stops at the least one that is not, with those before it cleared. -/
theorem deliverLoop_cases {signals : List (Fin NSIG)} (sorted : signals.Pairwise (· < ·))
    (encoded : proc.pendingSignals = mask S) :
    ((∀ i ∈ signals, i ∈ S → proc.signalHandlers i = SIG_IGN) ∧
      proc.deliverLoop signals = proc.withMask (S.filter (· ∉ signals))) ∨
    ∃ s ∈ signals, s ∈ S ∧ proc.signalHandlers s ≠ SIG_IGN ∧
      (∀ i ∈ signals, i ∈ S → proc.signalHandlers i ≠ SIG_IGN → s ≤ i) ∧
      proc.deliverLoop signals =
        (proc.withMask (S.filter fun i => ¬ (i ∈ signals ∧ i < s))).stop s := by
  induction signals generalizing proc S with
  | nil =>
      left
      simp [Proc.deliverLoop, withMask_self encoded]
  | cons i rest ih =>
      obtain ⟨above, ascending⟩ := List.pairwise_cons.mp sorted
      by_cases skipped : i ∈ S → proc.signalHandlers i = SIG_IGN
      · rw [deliverLoop_skip encoded skipped]
        have cleared : (proc.withMask (S.erase i)).pendingSignals = mask (S.erase i) := rfl
        obtain ⟨all, after⟩ | ⟨s, member, pending, heeded, least, after⟩ := ih ascending cleared
        · left
          refine ⟨fun j here present => ?_, after.trans (congrArg proc.withMask ?_)⟩
          · obtain rfl | later := List.mem_cons.mp here
            · exact skipped present
            · exact all j later (Finset.mem_erase.mpr ⟨(above j later).ne', present⟩)
          · ext j
            simp only [Finset.mem_filter, Finset.mem_erase, List.mem_cons, not_or]
            tauto
        · right
          refine ⟨s, List.mem_cons_of_mem _ member, Finset.mem_of_mem_erase pending, heeded,
            fun j here present asked => ?_,
            after.trans (congrArg (fun kept => (proc.withMask kept).stop s) ?_)⟩
          · obtain rfl | later := List.mem_cons.mp here
            · exact absurd (skipped present) asked
            · exact least j later (Finset.mem_erase.mpr ⟨(above j later).ne', present⟩) asked
          · have before := above s member
            ext j
            simp only [Finset.mem_filter, Finset.mem_erase, List.mem_cons]
            by_cases same : j = i
            · simp [same, before]
            · simp [same]
      · right
        obtain ⟨present, heeded⟩ := Classical.not_imp.mp skipped
        refine ⟨i, List.mem_cons_self, present, heeded, fun j here _ _ => ?_, ?_⟩
        · obtain rfl | later := List.mem_cons.mp here
          · exact le_rfl
          · exact (above j later).le
        · rw [deliverLoop_stop encoded present heeded]
          have all : S.filter (fun j => ¬ (j ∈ i :: rest ∧ j < i)) = S := by
            refine Finset.filter_true_of_mem fun j _ => ?_
            rintro ⟨here, earlier⟩
            obtain rfl | later := List.mem_cons.mp here
            · exact lt_irrefl _ earlier
            · exact lt_asymm earlier (above j later)
          rw [all, withMask_self encoded]

theorem deliver_delivered (encoded : proc.pendingSignals = mask S)
    (down : proc.isHandlingSignal = false) : Delivered S proc proc.deliver := by
  rw [Proc.deliver]
  split
  · have sorted : (List.finRange NSIG).Pairwise (· < ·) := List.pairwise_lt_finRange NSIG
    obtain ⟨all, after⟩ | ⟨s, -, pending, heeded, least, after⟩ :=
      deliverLoop_cases sorted encoded
    · rw [after]
      have none : S.filter (· ∉ List.finRange NSIG) = ∅ := by simp
      rw [none, Proc.withMask, mask_empty]
      exact .ignored fun i present => all i (List.mem_finRange i) present
    · have found : Least S proc s :=
        ⟨pending, heeded, fun i present asked => least i (List.mem_finRange i) present asked⟩
      have kept : S.filter (fun i => ¬ (i ∈ List.finRange NSIG ∧ i < s)) = passed S proc s := by
        refine Finset.filter_congr fun i present => ?_
        have earlier : i < s → proc.signalHandlers i = SIG_IGN := fun lower => by
          by_contra asked
          exact absurd (found.least i present asked) (not_le_of_gt lower)
        simp only [List.mem_finRange, true_and]
        tauto
      rw [after, kept, Proc.stop]
      split
      · exact .killed s found ‹_›
      · have entered := Delivered.handled s found ‹_›
        rwa [mask_erase] at entered
  · rename_i shut
    have empty : S = ∅ := by
      by_contra some
      exact shut ⟨by rw [encoded]; exact (mask_pos S).mpr (Finset.nonempty_iff_ne_empty.mpr some),
        down⟩
    have unchanged : ({ proc with pendingSignals := 0 } : Proc) = proc := by
      rw [← mask_empty, ← empty, ← encoded]
    have ignored : Delivered S proc { proc with pendingSignals := 0 } :=
      .ignored (by simp [empty])
    rwa [unchanged] at ignored

end Loop

/-! ### The loop's rounds -/

section Rounds

variable {state : State} {p : Slot}

theorem step_scan {i : ℕ} (running : (state.proc p).state = .RUNNING)
    (here : state.phase p = .scan i) : system.step state (p, .next) (scan state p i) := by
  simp [system, step, running, here, advance]

theorem setProc_self : state.setProc p (state.proc p) = state := by
  simp [State.setProc]

theorem drop_finRange {k : ℕ} (bound : k < NSIG) :
    (List.finRange NSIG).drop k = ⟨k, bound⟩ :: (List.finRange NSIG).drop (k + 1) := by
  rw [List.drop_eq_getElem_cons (by simpa using bound)]
  simp

theorem scan_cons {proc after' : Proc} {k : ℕ} (running : (state.proc p).state = .RUNNING)
    (here : state.phase p = .scan k)
    (round : scan state p k = (state.setProc p proc).goto p (.scan (k + 1)))
    (rest : ∃ rounds after, system.Run ((state.setProc p proc).goto p (.scan (k + 1)))
      (List.replicate rounds (p, .next)) after ∧
      after.proc = Function.update ((state.setProc p proc).goto p (.scan (k + 1))).proc p after' ∧
      after.phase p = .leave) :
    ∃ rounds after, system.Run state (List.replicate rounds (p, .next)) after ∧
      after.proc = Function.update state.proc p after' ∧ after.phase p = .leave := by
  obtain ⟨rounds, after, run, same, left⟩ := rest
  have taken := step_scan running here
  rw [round] at taken
  refine ⟨rounds + 1, after, .cons taken run, ?_, left⟩
  rw [same]
  exact Function.update_idem ..

theorem scan_steps {k : ℕ} (reached : k ≤ NSIG) (running : (state.proc p).state = .RUNNING)
    (here : state.phase p = .scan k) :
    ∃ rounds after, system.Run state (List.replicate rounds (p, .next)) after ∧
      after.proc =
        Function.update state.proc p
          ((state.proc p).deliverLoop ((List.finRange NSIG).drop k)) ∧
      after.phase p = .leave := by
  induction left : NSIG - k generalizing k state with
  | zero =>
      have last : k = NSIG := by omega
      have round : scan state p k = state.goto p .leave := by
        rw [scan, dif_neg (by omega)]
      have taken := step_scan running here
      have none : (List.finRange NSIG).drop k = [] := List.drop_of_length_le (by simp [last])
      rw [round] at taken
      rw [none]
      exact ⟨1, _, .cons taken (.nil _), by simp [State.goto, Proc.deliverLoop],
        by simp [State.goto]⟩
  | succ left ih =>
      have bound : k < NSIG := by omega
      have taken := step_scan running here
      rw [drop_finRange bound, Proc.deliverLoop]
      by_cases clear : (state.proc p).pendingSignals &&& signalBit k = 0
      · rw [if_pos clear]
        have round : scan state p k =
            (state.setProc p (state.proc p)).goto p (.scan (k + 1)) := by
          rw [scan, dif_pos bound, if_pos clear, setProc_self]
        refine scan_cons running here round ?_
        rw [setProc_self]
        exact ih bound running (by simp [State.goto]) (by omega)
      · rw [if_neg clear]
        by_cases ignored : (state.proc p).signalHandlers ⟨k, bound⟩ = SIG_IGN
        · rw [if_pos ignored]
          have round : scan state p k =
              (state.setProc p ((state.proc p).clear k)).goto p (.scan (k + 1)) := by
            rw [scan, dif_pos bound, if_neg clear, if_pos ignored]
          refine scan_cons running here round ?_
          have cleared : ((state.setProc p ((state.proc p).clear k)).goto p
              (.scan (k + 1))).proc p = (state.proc p).clear k := by
            simp [State.goto, State.setProc]
          have later := ih bound (by rw [cleared]; exact running)
            (by simp [State.goto]) (by omega)
          rwa [cleared] at later
        · rw [if_neg ignored]
          refine ⟨1, _, .cons taken (.nil _), ?_⟩
          rw [scan, dif_pos bound, if_neg clear, if_neg ignored]
          split <;> simp [State.goto, State.setProc, State.record]

/-- A delivery in the interleaved model: the steps of `usertrap` from the test to the end of
the loop, with no other step in between. -/
theorem deliver_steps (running : (state.proc p).state = .RUNNING)
    (here : state.phase p = .signals) :
    ∃ rounds after, system.Run state (List.replicate rounds (p, .next)) after ∧
      after.proc = Function.update state.proc p (state.proc p).deliver ∧
      after.phase p = .leave := by
  have taken : system.step state (p, .next) (signals state p) := by
    simp [system, step, running, here, advance]
  rw [Proc.deliver]
  by_cases due : (state.proc p).pendingSignals > 0 ∧ (state.proc p).isHandlingSignal = false
  · rw [signals, if_pos due] at taken
    rw [if_pos due]
    have awake : ((state.goto p (.scan 0)).proc p).state = .RUNNING := running
    have start : (state.goto p (.scan 0)).phase p = .scan 0 := by simp [State.goto]
    obtain ⟨rounds, after, run, same, left⟩ := scan_steps (Nat.zero_le NSIG) awake start
    exact ⟨rounds + 1, after, .cons taken run, same, left⟩
  · rw [signals, if_neg due] at taken
    rw [if_neg due]
    exact ⟨1, _, .cons taken (.nil _), by simp [State.goto], by simp [State.goto]⟩

end Rounds

/-! ### Runs of whole calls -/

/-- `elsewhere` is anything else that is done to a process: it writes neither its mask nor
its handlers, and it puts no UNUSED slot to use. -/
inductive Move
  | allocproc (np : Slot) (page : Trapframe)
  | kkill (pid signum : Int)
  | signal (p : Slot)
  | deliver (p : Slot)
  | elsewhere (p : Slot) (proc : Proc)

def Proc.Elsewhere (before after : Proc) : Prop :=
  after.pendingSignals = before.pendingSignals ∧ after.signalHandlers = before.signalHandlers ∧
    (before.state = .UNUSED → after.state = .UNUSED)

instance (before after : Proc) : Decidable (before.Elsewhere after) :=
  inferInstanceAs (Decidable (_ ∧ _ ∧ _))

def move (state : State) : Move → Option State
  | .allocproc np page =>
      if (state.proc np).state = .UNUSED then some (allocproc state np page) else none
  | .kkill pid signum => some (kkill state pid signum).1
  | .signal p => some (sysSignal state p).1
  | .deliver p => some (state.setProc p (state.proc p).deliver)
  | .elsewhere p proc =>
      if (state.proc p).Elsewhere proc then some (state.setProc p proc) else none

def atomic : System State Move where
  init state := ∃ trapframe page, state = boot trapframe page
  step before label after := move before label = some after

def sigkill : Fin NSIG := ⟨9, by decide⟩

/-- The mask of a process encodes a set, and SIGKILL kills whatever `sys_signal` was asked. -/
structure Encoded (proc : Proc) : Prop where
  mask : ∃ S, proc.pendingSignals = mask S
  fatal : proc.state ≠ .UNUSED → proc.signalHandlers sigkill = SIG_DFL

theorem Encoded.setProc {state : State} (encoded : ∀ p, Encoded (state.proc p)) (q : Slot)
    {proc : Proc} (new : Encoded proc) (p : Slot) : Encoded ((state.setProc q proc).proc p) := by
  by_cases same : p = q
  · subst same
    simpa [State.setProc] using new
  · simpa [State.setProc, same] using encoded p

theorem post_encodes {proc : Proc} {S : Finset (Fin NSIG)} (encoded : proc.pendingSignals = mask S)
    (i : Fin NSIG) : (proc.post i).pendingSignals = mask (insert i S) := by
  rw [mask_insert, ← encoded]
  simp [Proc.post]

theorem Encoded.post {proc : Proc} (encoded : Encoded proc) {signum : Int} (low : 0 ≤ signum)
    (high : signum < NSIG) : Encoded (proc.post signum) := by
  obtain ⟨⟨S, same⟩, fatal⟩ := encoded
  obtain ⟨i, rfl⟩ : ∃ i : Fin NSIG, signum = (i : ℕ) :=
    ⟨⟨signum.toNat, by unfold NSIG at *; omega⟩, by simp; omega⟩
  refine ⟨⟨_, post_encodes same i⟩, fun used => fatal ?_⟩
  intro unused
  exact used (by simp [Proc.post, unused])

theorem Encoded.delivered {proc after : Proc} {S : Finset (Fin NSIG)}
    (fatal : proc.state ≠ .UNUSED → proc.signalHandlers sigkill = SIG_DFL)
    (delivered : Delivered S proc after) : Encoded after := by
  cases delivered with
  | ignored _ => exact ⟨⟨∅, mask_empty.symm⟩, fatal⟩
  | killed s _ _ => exact ⟨⟨_, rfl⟩, fatal⟩
  | handled s _ _ => exact ⟨⟨_, rfl⟩, fatal⟩

theorem deliver_handling {proc : Proc} (up : proc.isHandlingSignal = true) :
    proc.deliver = proc := by
  rw [Proc.deliver, if_neg (by simp [up])]

theorem Encoded.deliver {proc : Proc} (encoded : Encoded proc) : Encoded proc.deliver := by
  obtain ⟨S, same⟩ := encoded.mask
  cases up : proc.isHandlingSignal with
  | true =>
      rw [deliver_handling up]
      exact encoded
  | false => exact .delivered encoded.fatal (deliver_delivered same up)

theorem Encoded.sysSignal {state : State} (encoded : ∀ p, Encoded (state.proc p)) (q p : Slot) :
    Encoded ((sysSignal state q).1.proc p) := by
  rw [Signal.sysSignal]
  split
  · exact encoded p
  · rename_i valid
    refine Encoded.setProc encoded q ⟨?_, fun used => ?_⟩ p
    · exact (encoded q).mask
    have other : sigkill ≠ ⟨((state.proc q).trapframe.argint 0).toNat,
        by unfold NSIG at *; omega⟩ := by
      intro same
      have equal := congrArg Fin.val same
      simp only [sigkill] at equal
      exact valid (.inr (.inr (by unfold SIGKILL; omega)))
    exact (Function.update_of_ne other _ _).trans ((encoded q).fatal used)

theorem boot_encoded (trapframe page : Trapframe) (p : Slot) :
    Encoded ((boot trapframe page).proc p) := by
  refine ⟨⟨∅, mask_empty.symm⟩, fun used => ?_⟩
  by_cases first : p = initproc
  · simp [boot, first]
  · simp [boot, first] at used

theorem move_encoded {state after : State} {label : Move}
    (encoded : ∀ p, Encoded (state.proc p)) (moved : move state label = some after) (p : Slot) :
    Encoded (after.proc p) := by
  cases label with
  | allocproc np page =>
      simp only [move] at moved
      split at moved
      · obtain rfl := Option.some.inj moved
        exact Encoded.setProc encoded np ⟨⟨∅, mask_empty.symm⟩, fun _ => rfl⟩ p
      · simp at moved
  | kkill pid signum =>
      obtain rfl := Option.some.inj moved
      rcases kkill_cases state pid signum with missed | ⟨low, high, q, -, posted⟩
      · rw [missed]
        exact encoded p
      · rw [posted]
        exact Encoded.setProc encoded q ((encoded q).post low high) p
  | signal q =>
      obtain rfl := Option.some.inj moved
      exact .sysSignal encoded q p
  | deliver q =>
      obtain rfl := Option.some.inj moved
      exact Encoded.setProc encoded q (encoded q).deliver p
  | elsewhere q proc =>
      simp only [move] at moved
      split at moved
      · rename_i same
        obtain ⟨pending, handlers, unused⟩ := same
        obtain rfl := Option.some.inj moved
        refine Encoded.setProc encoded q ⟨?_, fun used => ?_⟩ p
        · rw [pending]
          exact (encoded q).mask
        · rw [handlers]
          exact (encoded q).fatal fun free => used (unused free)
      · simp at moved

theorem encoded_of_reachable {state : State} (reachable : atomic.Reachable state) :
    ∀ p, Encoded (state.proc p) := by
  induction reachable with
  | start initial =>
      obtain ⟨trapframe, page, rfl⟩ := initial
      exact boot_encoded trapframe page
  | step _ moved ih => exact move_encoded ih moved

def Encodes (state : State) (pending : Slot → Finset (Fin NSIG)) : Prop :=
  ∀ p, (state.proc p).pendingSignals = mask (pending p)

theorem Encodes.unique {state : State} {first second : Slot → Finset (Fin NSIG)}
    (left : Encodes state first) (right : Encodes state second) : first = second :=
  funext fun p => mask_injective ((left p).symm.trans (right p))

theorem Encodes.kkill {state : State} {pending : Slot → Finset (Fin NSIG)}
    (encodes : Encodes state pending) {pid : Int} {q : Slot} (found : (state.proc q).pid = pid)
    (s : Fin NSIG) :
    ∃ r, (state.proc r).pid = pid ∧ (kkill state pid s).2 = 0 ∧
      Encodes (kkill state pid s).1 (Function.update pending r (insert s (pending r))) := by
  have low : (0 : Int) ≤ s := by omega
  have high : (s : Int) < NSIG := by omega
  have succeeds := kkill_succeeds low high found
  rcases kkill_cases state pid s with missed | ⟨-, -, r, here, posted⟩
  · simp [missed] at succeeds
  · refine ⟨r, here, succeeds, fun p => ?_⟩
    rw [posted]
    by_cases same : p = r
    · subst same
      simpa [State.setProc] using post_encodes (encodes p) s
    · simpa [State.setProc, same] using encodes p

/-- In every state that calls of `kkill` and `sys_signal` and deliveries lead to, each mask
encodes exactly one set of signals. `kkill` inserts a signal in 0..31 and refuses all others,
a delivery removes what it passes over and what it hands to the handler, and SIGKILL kills. -/
theorem pending_signals_is_set {state : State} (reachable : atomic.Reachable state) :
    (∃! pending, Encodes state pending) ∧
    (∀ p, (state.proc p).state ≠ .UNUSED → (state.proc p).signalHandlers sigkill = SIG_DFL) ∧
    (∀ pid signum, signum < 0 ∨ 31 < signum → kkill state pid signum = (state, -1)) ∧
    ∀ pending, Encodes state pending →
      (∀ pid (s : Fin NSIG) q, (state.proc q).pid = pid →
        ∃ r, (state.proc r).pid = pid ∧ (kkill state pid s).2 = 0 ∧
          Encodes (kkill state pid s).1 (Function.update pending r (insert s (pending r)))) ∧
      (∀ p, Encodes (sysSignal state p).1 pending) ∧
      ∀ p, (state.proc p).isHandlingSignal = false →
        Delivered (pending p) (state.proc p) (state.proc p).deliver := by
  have encoded := encoded_of_reachable reachable
  choose pending encodes using fun p => (encoded p).mask
  refine ⟨⟨pending, encodes, fun other same => Encodes.unique same encodes⟩,
    fun p => (encoded p).fatal, fun pid signum outside => ?_, fun pending encodes => ⟨?_, ?_, ?_⟩⟩
  · rw [kkill, if_pos (by unfold NSIG; omega)]
  · exact fun pid s q found => encodes.kkill found s
  · intro q p
    rw [sysSignal]
    split
    · exact encodes p
    · by_cases same : p = q
      · subst same
        simpa [State.setProc] using encodes p
      · simpa [State.setProc, same] using encodes p
  · exact fun p down => deliver_delivered (encodes p) down

def twoSent : List Move :=
  let init := (boot default default).proc initproc
  let asking : Trapframe := { (default : Trapframe) with a0 := 5, a1 := SIG_IGN }
  [.elsewhere initproc { init with trapframe := asking }, .signal initproc,
    .kkill 1 31, .kkill 1 5]

theorem pending_signals_is_set_ignored : ∃ state, atomic.Reachable state ∧
    (state.proc initproc).pendingSignals = 0xffffffff80000020 ∧
    ∃ pending, Encodes state pending ∧
      Delivered (pending initproc) (state.proc initproc) (state.proc initproc).deliver := by
  have runs : (System.execute move (boot default default) twoSent).map (fun state =>
      ((state.proc initproc).pendingSignals, (state.proc initproc).isHandlingSignal)) =
        some (0xffffffff80000020, false) := by decide +kernel
  obtain ⟨state, executed, same⟩ := Option.map_eq_some_iff.mp runs
  obtain ⟨bits, down⟩ := Prod.mk.inj same
  have run : atomic.Run (boot default default) twoSent state :=
    .ofExecute (fun _ _ _ taken => taken) executed
  have reachable := run.reachable (.start ⟨default, default, rfl⟩)
  obtain ⟨⟨pending, encodes, -⟩, -, -, calls⟩ := pending_signals_is_set reachable
  exact ⟨state, reachable, bits, pending, encodes, (calls pending encodes).2.2 initproc down⟩

end OsLab.Kernel.Signal
