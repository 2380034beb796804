import OsLab.Kernel.Clone
import OsLab.Kernel.ProcMemory

/-!
`kclone` is all or nothing: whatever the call has taken when it fails is back on the free list,
and no page in use has been written.
-/

namespace OsLab.Kernel.Clone

open OsLab.Library OsLab.Kernel.Paging
open OsLab.Kernel.Memory (trampoline trampolinePage_eq)
open OsLab.Kernel.Signal (SIG_DFL)

variable {n : ℕ}

/-! ### What the call holds -/

/-- Of the pages that were free at the start, those in `own` are in the hands of the call and the
others still free; the pages in use are as they were. -/
structure Holding (initial : List Frame) (mem : Frame → Page) (own : Frame → Prop) (m : Machine)
    (rest : List Frame) : Prop where
  holds : m.kmem.Holds rest
  free : ∀ f, f ∈ initial ↔ f ∈ rest ∨ own f
  apart : ∀ f, own f → f ∉ rest
  same : ∀ f, f ∉ initial → m.mem f = mem f

namespace Holding

variable {initial rest : List Frame} {mem : Frame → Page} {own other : Frame → Prop} {m after : Machine}
  {r : Frame}

theorem start (holds : m.kmem.Holds initial) : Holding initial m.mem (fun _ => False) m initial :=
  ⟨holds, fun f => by simp, fun _ => False.elim, fun _ _ => rfl⟩

theorem congr (holding : Holding initial mem own m rest) (same : ∀ f, other f ↔ own f) :
    Holding initial mem other m rest :=
  ⟨holding.holds, fun f => by rw [same, holding.free], fun f here => holding.apart f ((same f).mp here),
    holding.same⟩

theorem refused (holding : Holding initial mem own m rest) (got : m.kalloc = (after, none)) :
    Holding initial mem own after rest := by
  obtain ⟨kmem, mem⟩ := Machine.kalloc_none got
  exact ⟨kmem ▸ holding.holds, holding.free, holding.apart, fun f used => by
    rw [mem, holding.same f used]⟩

theorem taken (holding : Holding initial mem own m rest) (got : m.kalloc = (after, some r)) :
    ∃ tail, Holding initial mem (fun f => own f ∨ f = r) after tail ∧ ¬ own r := by
  obtain ⟨tail, rfl, holds, kept⟩ := Machine.kalloc_some got holding.holds
  obtain ⟨fresh, -⟩ := List.nodup_cons.mp holding.holds.nodup
  have new : ¬ own r := fun here => holding.apart r here List.mem_cons_self
  refine ⟨tail, ⟨holds, fun f => ?_, fun f here member => ?_, fun f used => ?_⟩, new⟩
  · rw [holding.free, List.mem_cons]
    tauto
  · rcases here with here | rfl
    · exact holding.apart f here (List.mem_cons_of_mem _ member)
    · exact fresh member
  · rw [kept, holding.same f used]
    rintro rfl
    exact used ((holding.free f).mpr (.inl List.mem_cons_self))

theorem written (holding : Holding initial mem own m rest) (kmem : after.kmem = m.kmem)
    (kept : ∀ f, ¬ own f → after.mem f = m.mem f) : Holding initial mem own after rest := by
  refine ⟨kmem ▸ holding.holds, holding.free, holding.apart, fun f used => ?_⟩
  rw [kept, holding.same f used]
  exact fun here => used ((holding.free f).mpr (.inr here))

theorem kfree (holding : Holding initial mem (fun f => own f ∨ f = r) m rest) (once : ¬ own r) :
    Holding initial mem own (m.kfree r) (r :: rest) := by
  have taken := holding.apart r (.inr rfl)
  refine ⟨holding.holds.kfree taken, fun f => ?_, fun f here => ?_, fun f used => ?_⟩
  · rw [holding.free, List.mem_cons]
    tauto
  · rw [List.mem_cons, not_or]
    refine ⟨?_, holding.apart f (.inl here)⟩
    rintro rfl
    exact once here
  · refine (Machine.memset_other 1 ?_).trans (holding.same f used)
    rintro rfl
    exact used ((holding.free f).mpr (.inr (.inr rfl)))

theorem kfreeIf {given : Option Frame}
    (holding : Holding initial mem (fun f => own f ∨ given = some f) m rest)
    (once : ∀ f, given = some f → ¬ own f) :
    ∃ later, Holding initial mem own (m.kfreeIf given) later := by
  cases given with
  | none => exact ⟨rest, holding.congr fun f => by simp⟩
  | some r =>
      refine ⟨_, Holding.kfree (holding.congr fun f => ?_) (once r rfl)⟩
      rw [Option.some.injEq]
      exact or_congr_right eq_comm

end Holding

/-- The call holds the pages of a table besides the others in `own`. -/
structure Building (initial : List Frame) (mem : Frame → Page) (own : Frame → Prop) (pagetable : Frame)
    (m : Machine) (rest : List Frame) : Prop where
  holding : Holding initial mem (fun f => own f ∨ InTable m.mem pagetable f) m rest
  tree : format.Tree m.mem 2 pagetable
  once : ∀ f, own f → ¬ InTable m.mem pagetable f

namespace Building

variable {initial rest later : List Frame} {mem : Frame → Page} {own : Frame → Prop}
  {m after : Machine} {r pagetable : Frame}

theorem table (building : Building initial mem own pagetable m rest) : Table m rest pagetable :=
  ⟨building.holding.holds, building.tree, fun f inside => building.holding.apart f (.inr inside)⟩

theorem grown (building : Building initial mem own pagetable m rest)
    (grown : Grown 2 pagetable m rest after later) :
    Building initial mem own pagetable after later := by
  have within : ∀ f, InTable after.mem pagetable f ↔
      InTable m.mem pagetable f ∨ f ∈ rest ∧ f ∉ later := grown.within
  refine ⟨⟨grown.holds, fun f => ?_, fun f here member => ?_, fun f used => ?_⟩, grown.tree,
    fun f here inside => ?_⟩
  · have fewer := grown.fewer f
    rw [building.holding.free, within]
    tauto
  · rcases here with here | inside
    · exact building.holding.apart f (.inl here) (grown.fewer f member)
    · rcases (within f).mp inside with before | ⟨-, gone⟩
      · exact building.holding.apart f (.inr before) (grown.fewer f member)
      · exact gone member
  · rw [grown.same, building.holding.same f used]
    intro inside
    refine used ((building.holding.free f).mpr ?_)
    rcases (within f).mp inside with before | ⟨member, -⟩
    · exact .inr (.inr before)
    · exact .inl member
  · rcases (within f).mp inside with before | ⟨member, -⟩
    · exact building.once f here before
    · exact building.holding.apart f (.inl here) member

theorem kfree (building : Building initial mem (fun f => own f ∨ f = r) pagetable m rest)
    (once : ¬ own r) :
    Building initial mem own pagetable (m.kfree r) (r :: rest) ∧
      ∀ q, leaf (m.kfree r).mem pagetable q = leaf m.mem pagetable q := by
  have outside := building.once r (.inr rfl)
  have kept : ∀ f, InTable m.mem pagetable f → (m.kfree r).mem f = m.mem f := by
    intro f inside
    refine Machine.memset_other 1 ?_
    rintro rfl
    exact outside inside
  have within : ∀ f, InTable (m.kfree r).mem pagetable f ↔ InTable m.mem pagetable f :=
    fun f => RadixFormat.within_congr kept
  refine ⟨⟨?_, building.tree.congr kept, fun f here => ?_⟩, fun q => RadixFormat.lookup_congr kept⟩
  · refine Holding.congr (Holding.kfree (building.holding.congr fun f => by tauto) ?_)
      fun f => or_congr_right (within f)
    exact not_or.mpr ⟨once, outside⟩
  · rw [within]
    exact building.once f (.inl here)

theorem written (building : Building initial mem own pagetable m rest) (here : own r)
    (kmem : after.kmem = m.kmem) (kept : ∀ f, f ≠ r → after.mem f = m.mem f) :
    Building initial mem own pagetable after rest ∧
      ∀ q, leaf after.mem pagetable q = leaf m.mem pagetable q := by
  have outside := building.once r here
  have kept' : ∀ f, InTable m.mem pagetable f → after.mem f = m.mem f := by
    intro f inside
    refine kept f ?_
    rintro rfl
    exact outside inside
  have within : ∀ f, InTable after.mem pagetable f ↔ InTable m.mem pagetable f :=
    fun f => RadixFormat.within_congr kept'
  refine ⟨⟨?_, building.tree.congr kept', fun f here' => ?_⟩,
    fun q => RadixFormat.lookup_congr kept'⟩
  · refine (building.holding.written kmem fun f other => kept f ?_).congr fun f =>
      or_congr_right (within f)
    rintro rfl
    exact other (.inl here)
  · rw [within]
    exact building.once f here'

theorem freewalk (building : Building initial mem own pagetable m rest)
    (empty : ∀ q, q < 512 ^ 3 → leaf m.mem pagetable q = none) :
    ∃ after later, Paging.freewalk 3 m pagetable = some after ∧
      Holding initial mem own after later := by
  have none : ∀ key : ℕ → Fin 512, format.lookup m.mem key 2 pagetable = none := by
    intro key
    obtain ⟨q, low, same⟩ := exists_page key
    rw [← empty q low]
    exact RadixFormat.lookup_key_congr fun k bound => (same k bound).symm
  obtain ⟨after, later, ran, freed⟩ := freewalk_spec building.holding.holds building.tree
    (fun f inside => building.holding.apart f (.inr inside)) none
  refine ⟨after, later, ran, freed.holds, fun f => ?_, fun f here => ?_, fun f used => ?_⟩
  · rw [building.holding.free, freed.back]
    exact (or_assoc.trans (or_congr_right or_comm)).symm
  · rw [freed.back]
    exact not_or.mpr ⟨building.holding.apart f (.inl here), building.once f here⟩
  · rw [freed.same, building.holding.same f used]
    exact fun inside => used ((building.holding.free f).mpr (.inr (.inr inside)))

end Building

/-! ### The functions of `proc.c` -/

section Functions

variable {initial rest : List Frame} {mem : Frame → Page} {own : Frame → Prop} {m after : Machine} {pagetable : Frame}

theorem uvmcreate_spec (holding : Holding initial mem own m rest) :
    ∃ after result later, uvmcreate m = (after, result) ∧
      (result = none → Holding initial mem own after later) ∧
      ∀ r, result = some r → Building initial mem own r after later ∧
        ∀ q, leaf after.mem r q = none := by
  rw [uvmcreate]
  rcases got : m.kalloc with ⟨mid, _ | r⟩
  · exact ⟨mid, none, rest, rfl, fun _ => holding.refused got, by simp⟩
  · obtain ⟨tail, taken, once⟩ := holding.taken got
    have blank := Machine.memset_zero (m := mid) (r := r)
    have within : ∀ f, InTable (mid.memset r 0).mem r f ↔ f = r :=
      fun f => RadixFormat.within_of_blank blank
    refine ⟨mid.memset r 0, some r, tail, rfl, by simp, fun r' same => ?_⟩
    obtain rfl := Option.some.inj same
    refine ⟨⟨?_, RadixFormat.tree_of_blank blank, fun f here inside => ?_⟩,
      fun q => RadixFormat.lookup_of_blank blank⟩
    · refine (taken.written (Machine.kmem_memset 0) fun f other => ?_).congr fun f => or_congr_right (within f)
      exact Machine.memset_other 0 fun same => other (.inr same)
    · rw [(within f).mp inside] at here
      exact once here

def bareLeaf (trapframe : Frame) (q : ℕ) : Option Word :=
  if q = trampolinePage then some ⟨trampoline, PTE_R ||| PTE_X ||| PTE_V⟩
  else if q = trapframePage then some ⟨trapframe, PTE_R ||| PTE_W ||| PTE_V⟩
  else none

theorem trampolinePage_lt : trampolinePage < maxPage := by
  decide

theorem trapframePage_lt : trapframePage < trampolinePage := by
  decide

theorem procPagetable_spec (holding : Holding initial mem own m rest) (trapframe : Frame) :
    ∃ after result later, procPagetable m trapframe = some (after, result) ∧
      (result = none → Holding initial mem own after later) ∧
      ∀ r, result = some r → Building initial mem own r after later ∧
        ∀ q, q < 512 ^ 3 → leaf after.mem r q = bareLeaf trapframe q := by
  obtain ⟨mid, result, later, created, failed, made⟩ := uvmcreate_spec holding
  rw [procPagetable, created]
  cases result with
  | none => exact ⟨mid, none, later, rfl, fun _ => failed rfl, by simp⟩
  | some r =>
      obtain ⟨building, empty⟩ := made r rfl
      obtain ⟨mid₁, done, later₁, mapped, grown, leaves⟩ := mappages_spec building.table
        trampolinePage_lt (empty _) trampoline (PTE_R ||| PTE_X)
      have building₁ := building.grown grown
      cases done with
      | false =>
          obtain ⟨after, later', freed, holding'⟩ := building₁.freewalk fun q low => by
            rw [leaves q low, if_neg (by simp), empty]
          refine ⟨after, none, later', ?_, fun _ => holding', by simp⟩
          simp [mapped, uvmfree, freed]
      | true =>
          have unmapped : leaf mid₁.mem r trapframePage = none := by
            rw [leaves _ (by decide), if_neg (by simp [trapframePage_lt.ne]), empty]
          obtain ⟨mid₂, done, later₂, mapped', grown', leaves'⟩ := mappages_spec building₁.table
            (trapframePage_lt.trans trampolinePage_lt) unmapped trapframe (PTE_R ||| PTE_W)
          have building₂ := building₁.grown grown'
          cases done with
          | false =>
              obtain ⟨mid₃, unmapped', grown'', leaves''⟩ := uvmunmap_spec building₂.table
                (show trampolinePage + 1 ≤ maxPage by decide)
              obtain ⟨after, later', freed, holding'⟩ := (building₂.grown grown'').freewalk
                fun q low => by
                  rw [leaves'' q low]
                  split
                  · rfl
                  · rw [leaves' q low, if_neg (by simp), leaves q low, if_neg (by omega), empty]
              refine ⟨after, none, later', ?_, fun _ => holding', by simp⟩
              simp [mapped, mapped', unmapped', uvmfree, freed]
          | true =>
              refine ⟨mid₂, some r, later₂, by simp [mapped, mapped'], by simp, fun r' same => ?_⟩
              obtain rfl := Option.some.inj same
              refine ⟨building₂, fun q low => ?_⟩
              rw [leaves' q low, leaves q low, bareLeaf, empty]
              by_cases first : q = trapframePage
              · rw [if_pos ⟨rfl, first⟩, if_neg (by rw [first]; exact trapframePage_lt.ne),
                  if_pos first]
              · rw [if_neg fun both => first both.2, if_neg first]
                by_cases second : q = trampolinePage
                · rw [if_pos ⟨rfl, second⟩, if_pos second]
                · rw [if_neg fun both => second both.2, if_neg second]

theorem procFreepagetable_spec (building : Building initial mem own pagetable m rest)
    (bare : ∀ q, q < 512 ^ 3 → q ≠ trampolinePage → q ≠ trapframePage →
      leaf m.mem pagetable q = none) :
    ∃ after later, procFreepagetable m pagetable 0 = some after ∧
      Holding initial mem own after later := by
  obtain ⟨mid, cut, grown, leaves⟩ := uvmunmap_spec building.table
    (show trampolinePage + 1 ≤ maxPage by decide)
  have building' := building.grown grown
  obtain ⟨mid', cut', grown', leaves'⟩ := uvmunmap_spec building'.table
    (show trapframePage + 1 ≤ maxPage by decide)
  obtain ⟨after, later, freed, holding⟩ := (building'.grown grown').freewalk fun q low => by
    rw [leaves' q low, leaves q low]
    split
    · rfl
    · split
      · rfl
      · exact bare q low (by omega) (by omega)
  exact ⟨after, later, by simp [procFreepagetable, cut, cut', uvmfree, freed], holding⟩

variable {p : Proc n} {trapframe sigTf : Frame}

theorem freeproc_untabled
    (holding : Holding initial mem (fun f => p.sigTf = some f ∨ p.trapframe = some f) m rest)
    (apart : ∀ f, p.trapframe = some f → ¬ p.sigTf = some f) (untabled : p.pagetable = none) :
    ∃ after later, freeproc m p = some (after, p.cleared) ∧
      Holding initial mem (fun _ => False) after later := by
  obtain ⟨middle, first⟩ := holding.kfreeIf apart
  have first' : Holding initial mem (fun f => False ∨ p.sigTf = some f)
      (m.kfreeIf p.trapframe) middle := first.congr fun f => by simp
  obtain ⟨later, second⟩ := first'.kfreeIf fun _ _ => id
  exact ⟨_, later, by simp [freeproc, untabled], second⟩

theorem freeproc_tabled
    (building : Building initial mem (fun f => f = sigTf ∨ f = trapframe) pagetable m rest)
    (apart : trapframe ≠ sigTf) (bare : ∀ q, q < 512 ^ 3 → q ≠ trampolinePage →
      q ≠ trapframePage → leaf m.mem pagetable q = none)
    (first : p.trapframe = some trapframe) (second : p.sigTf = some sigTf)
    (tabled : p.pagetable = some pagetable) (process : p.isThread = false) (size : p.sz = 0) :
    ∃ after later, freeproc m p = some (after, p.cleared) ∧
      Holding initial mem (fun _ => False) after later := by
  obtain ⟨building₁, leaves⟩ := building.kfree apart
  have one : Building initial mem (fun f => False ∨ f = sigTf) pagetable (m.kfree trapframe)
      (trapframe :: rest) :=
    ⟨building₁.holding.congr fun f => by simp, building₁.tree, fun f here =>
      building₁.once f (here.resolve_left id)⟩
  obtain ⟨building₂, leaves'⟩ := one.kfree id
  obtain ⟨after, later, freed, holding⟩ := procFreepagetable_spec building₂
    fun q low other other' => by rw [leaves', leaves, bare q low other other']
  refine ⟨after, later, ?_, holding⟩
  simp only [freeproc, first, second, tabled, process, size, Machine.kfreeIf]
  simp [freed]

end Functions

/-! ### The call -/

/-- A state in which `p` may call `kclone`: the free list is in order, the parent's table is in
use and its open files are counted, and UNUSED slots are as `freeproc` leaves them. -/
structure Sound (s : State n) (p : Fin n) (old : Frame) : Prop where
  freelist : ∃ free, s.machine.kmem.Holds free
  used : (s.procs p).state ≠ .UNUSED
  pagetable : (s.procs p).pagetable = some old
  trapframe : (s.procs p).trapframe ≠ none
  table : ∀ f, InTable s.machine.mem old f → ¬ s.machine.kmem.OnFreelist f
  clean : ∀ q, (s.procs q).state = .UNUSED →
    (s.procs q).sigTf = none ∧ (s.procs q).pagetable = none ∧ (s.procs q).sz = 0
  files : ∀ fd f, (s.procs p).ofile fd = some f → 0 < s.fileRef f
  cwd : (s.procs p).cwd ≠ none

def Proc.handedOut (p : Proc n) (pid : Int) (forkret : ℕ) (trapframe sigTf pagetable : Frame) :
    Proc n :=
  Proc.prepared { p with
    pid := pid
    state := .USED
    trapframe := some trapframe
    sigTf := some sigTf
    pagetable := some pagetable } forkret

/-- A call that has failed: the free pages, the parent's table and all memory in use, the
references and every slot but the one it tried are as before. -/
structure Undone (s : State n) (old : Frame) (t : State n) : Prop where
  free : ∀ f, t.machine.kmem.OnFreelist f ↔ s.machine.kmem.OnFreelist f
  mem : ∀ f, ¬ s.machine.kmem.OnFreelist f → t.machine.mem f = s.machine.mem f
  table : ∀ q, q < 512 ^ 3 → leaf t.machine.mem old q = leaf s.machine.mem old q
  files : t.fileRef = s.fileRef
  inodes : t.inodeRef = s.inodeRef
  procs : ∀ q, s.findUnused ≠ some q → t.procs q = s.procs q
  tried : ∀ q, s.findUnused = some q → (t.procs q).state = .UNUSED

/-- A call that has made a thread in `np`: below `sz` its table maps what the parent's does, and
the pages taken are the three kinds that it holds. -/
structure Cloned (s : State n) (p : Fin n) (old : Frame) (t : State n) (np : Fin n)
    (tf sig new : Frame) : Prop where
  slot : s.findUnused = some np
  trapframe : (t.procs np).trapframe = some tf
  sigTf : (t.procs np).sigTf = some sig
  pagetable : (t.procs np).pagetable = some new
  leaves : ∀ q, q < 512 ^ 3 → leaf t.machine.mem new q =
    if q * PGSIZE < (s.procs p).sz then leaf s.machine.mem old q else bareLeaf tf q
  fewer : ∀ f, t.machine.kmem.OnFreelist f → s.machine.kmem.OnFreelist f
  taken : ∀ f, s.machine.kmem.OnFreelist f ∧ ¬ t.machine.kmem.OnFreelist f ↔
    f = tf ∨ f = sig ∨ InTable t.machine.mem new f

section Calls

variable {s : State n} {p : Fin n} {old : Frame} {free : List Frame}

theorem giveUp_spec (s : State n) (np : Fin n) {m after : Machine} {proc : Proc n}
    (freed : freeproc m proc = some (after, proc.cleared)) :
    ∃ cleared, s.giveUp np m proc = some (s.setProc after np cleared, none) ∧
      cleared.state = .UNUSED :=
  ⟨proc.cleared, by rw [State.giveUp, freed]; rfl, rfl⟩

theorem allocproc_spec (holds : s.machine.kmem.Holds free)
    (clean : ∀ q, (s.procs q).state = .UNUSED →
      (s.procs q).sigTf = none ∧ (s.procs q).pagetable = none ∧ (s.procs q).sz = 0) :
    (s.findUnused = none ∧ s.allocproc = some (s, none)) ∨ ∃ np m later, s.findUnused = some np ∧
      ((∃ freed : Proc n, s.allocproc = some ({ s with nextpid := s.nextpid + 1 }.setProc m np freed, none) ∧
          freed.state = .UNUSED ∧ Holding free s.machine.mem (fun _ => False) m later) ∨
        ∃ trapframe sigTf new, s.allocproc =
          some ({ s with nextpid := s.nextpid + 1 }.setProc m np
            ((s.procs np).handedOut s.nextpid s.forkret trapframe sigTf new), some np) ∧
          trapframe ≠ sigTf ∧
          Building free s.machine.mem (fun f => f = sigTf ∨ f = trapframe) new m later ∧
          ∀ q, q < 512 ^ 3 → leaf m.mem new q = bareLeaf trapframe q) := by
  cases found : s.findUnused with
  | none => exact .inl ⟨rfl, by rw [State.allocproc, found]⟩
  | some np =>
      have unused : (s.procs np).state = .UNUSED := by simpa using List.find?_some found
      obtain ⟨noSig, noTable, -⟩ := clean np unused
      have holding := Holding.start holds
      right
      rw [State.allocproc, found]
      rcases got : s.machine.kalloc with ⟨m₁, _ | trapframe⟩
      · obtain ⟨m, later, freed, back⟩ := freeproc_untabled
          (p := { s.procs np with pid := s.nextpid, state := .USED, trapframe := none })
          ((holding.refused got).congr fun f => by simp [noSig]) (by simp) noTable
        obtain ⟨cleared, gaveUp, reset⟩ := giveUp_spec { s with nextpid := s.nextpid + 1 } np freed
        refine ⟨np, m, later, rfl, .inl ⟨cleared, ?_, reset, back⟩⟩
        simp only [got]
        exact gaveUp
      obtain ⟨rest₁, holding₁, -⟩ := holding.taken got
      rcases got' : m₁.kalloc with ⟨m₂, _ | sigTf⟩
      · obtain ⟨m, later, freed, back⟩ := freeproc_untabled
          (p := { s.procs np with
            pid := s.nextpid, state := .USED, trapframe := some trapframe, sigTf := none })
          ((holding₁.refused got').congr fun f => by simp [eq_comm]) (by simp) noTable
        obtain ⟨cleared, gaveUp, reset⟩ := giveUp_spec { s with nextpid := s.nextpid + 1 } np freed
        refine ⟨np, m, later, rfl, .inl ⟨cleared, ?_, reset, back⟩⟩
        simp only [got, got']
        exact gaveUp
      obtain ⟨rest₂, holding₂, fresh⟩ := holding₁.taken got'
      have apart : trapframe ≠ sigTf := by
        rintro rfl
        exact fresh (.inr rfl)
      obtain ⟨m₃, result, rest₃, made, failed, done⟩ := procPagetable_spec holding₂ trapframe
      cases result with
      | none =>
          obtain ⟨m, later, freed, back⟩ := freeproc_untabled
            (p := { s.procs np with
              pid := s.nextpid
              state := .USED
              trapframe := some trapframe
              sigTf := some sigTf
              pagetable := none })
            ((failed rfl).congr fun f => by simp [eq_comm, or_comm]) (by simpa using apart.symm) rfl
          obtain ⟨cleared, gaveUp, reset⟩ := giveUp_spec { s with nextpid := s.nextpid + 1 } np freed
          refine ⟨np, m, later, rfl, .inl ⟨cleared, ?_, reset, back⟩⟩
          simp only [got, got', made]
          exact gaveUp
      | some new =>
          obtain ⟨building, leaves⟩ := done new rfl
          refine ⟨np, m₃, rest₃, rfl, .inr ⟨trapframe, sigTf, new, ?_, apart,
            ⟨building.holding.congr fun f => ?_, building.tree, fun f here => ?_⟩, leaves⟩⟩
          · simp only [got, got', made]
            rfl
          · tauto
          · exact building.once f (by tauto)

theorem dupFiles_spec {ofile : Fin NOFILE → Option ℕ} {ref : ℕ → ℕ}
    (counted : ∀ fd f, ofile fd = some f → 0 < ref f) :
    ∃ later, dupFiles ofile ref = some later ∧ ∀ f, ref f ≤ later f := by
  rw [dupFiles]
  generalize List.finRange NOFILE = fds
  induction fds generalizing ref with
  | nil => exact ⟨ref, rfl, fun _ => le_rfl⟩
  | cons fd fds ih =>
      rw [List.foldlM_cons]
      cases opened : ofile fd with
      | none => exact ih counted
      | some f =>
          have more : ∀ g, ref g ≤ Function.update ref f (ref f + 1) g := by
            intro g
            by_cases same : g = f
            · simp [same]
            · simp [same]
          have once : filedup ref f = some (Function.update ref f (ref f + 1)) :=
            if_neg (Nat.not_lt.mpr (counted fd f opened))
          obtain ⟨later, ran, grown⟩ := ih fun fd g opened =>
            lt_of_lt_of_le (counted fd g opened) (more g)
          exact ⟨later, by simpa [once] using ran, fun g => (more g).trans (grown g)⟩

theorem shareTrapframe_other (m : Machine) (src : Frame) (fcn stack arg : ℕ) {dst f : Frame}
    (other : f ≠ dst) : (shareTrapframe m dst src fcn stack arg).mem f = m.mem f := by
  rw [shareTrapframe, Machine.store_other _ _ other, Machine.store_other _ _ other,
    Machine.store_other _ _ other]
  exact Function.update_of_ne other _ _

theorem lt_pages {sz q : ℕ} : q < pages sz ↔ q * PGSIZE < sz := by
  unfold pages pgRoundUp PGSIZE
  omega

theorem pages_le (bound : (s.procs p).sz ≤ TRAPFRAME) : pages (s.procs p).sz ≤ trapframePage := by
  have all : pages TRAPFRAME = trapframePage := by decide
  rw [← all]
  exact Space.pages_mono bound

theorem Undone.of_holding {t : State n} {later : List Frame} (sound : Sound s p old)
    (holds : s.machine.kmem.Holds free)
    (holding : Holding free s.machine.mem (fun _ => False) t.machine later)
    (files : t.fileRef = s.fileRef) (inodes : t.inodeRef = s.inodeRef)
    (procs : ∀ q, s.findUnused ≠ some q → t.procs q = s.procs q)
    (tried : ∀ q, s.findUnused = some q → (t.procs q).state = .UNUSED) : Undone s old t := by
  have same : ∀ f, ¬ s.machine.kmem.OnFreelist f → t.machine.mem f = s.machine.mem f := by
    intro f used
    rw [holds.onFreelist] at used
    exact holding.same f used
  refine ⟨fun f => ?_, same, fun q _ => ?_, files, inodes, procs, tried⟩
  · rw [holds.onFreelist, holding.holds.onFreelist, holding.free, or_false]
  · exact RadixFormat.lookup_congr fun f inside => same f (sound.table f inside)

theorem Cloned.of_building {t : State n} {np : Fin n} {tf sig new : Frame} {rest : List Frame}
    (holds : s.machine.kmem.Holds free)
    (building : Building free s.machine.mem (fun f => f = sig ∨ f = tf) new t.machine rest)
    (slot : s.findUnused = some np) (trapframe : (t.procs np).trapframe = some tf)
    (sigTf : (t.procs np).sigTf = some sig) (pagetable : (t.procs np).pagetable = some new)
    (leaves : ∀ q, q < 512 ^ 3 → leaf t.machine.mem new q =
      if q * PGSIZE < (s.procs p).sz then leaf s.machine.mem old q else bareLeaf tf q) :
    Cloned s p old t np tf sig new := by
  have holding := building.holding
  refine ⟨slot, trapframe, sigTf, pagetable, leaves, fun f => ?_, fun f => ?_⟩
  · rw [holds.onFreelist, holding.holds.onFreelist, holding.free]
    exact .inl
  · have apart := holding.apart f
    rw [holds.onFreelist, holding.holds.onFreelist, holding.free]
    tauto

theorem uvmshare_spec (sound : Sound s p old) (bound : (s.procs p).sz ≤ TRAPFRAME)
    (holds : s.machine.kmem.Holds free) {own : Frame → Prop} {trapframe new : Frame} {m : Machine}
    {later : List Frame} (building : Building free s.machine.mem own new m later)
    (leaves : ∀ q, q < 512 ^ 3 → leaf m.mem new q = bareLeaf trapframe q) :
    ∃ mid done rest, uvmshare m old new (s.procs p).sz = some (mid, done) ∧
      Building free s.machine.mem own new mid rest ∧
      (done = true → ∀ q, q < 512 ^ 3 → leaf mid.mem new q =
        if q * PGSIZE < (s.procs p).sz then leaf s.machine.mem old q else bareLeaf trapframe q) ∧
      (done = false → ∀ q, q < 512 ^ 3 → q ≠ trampolinePage → q ≠ trapframePage →
        leaf mid.mem new q = none) := by
  have kept : ∀ f, InTable s.machine.mem old f → m.mem f = s.machine.mem f := by
    intro f inside
    refine building.holding.same f ?_
    rw [← holds.onFreelist]
    exact sound.table f inside
  have disjoint : ∀ f, InTable m.mem old f → f ∉ later ∧ ¬ InTable m.mem new f := by
    intro f inside
    have used := sound.table f ((RadixFormat.within_congr kept).mp inside)
    rw [holds.onFreelist, building.holding.free] at used
    exact ⟨fun member => used (.inl member), fun inside' => used (.inr (.inr inside'))⟩
  have low := pages_le bound
  have below : 0 + pages (s.procs p).sz ≤ maxPage := by
    have := trapframePage_lt
    have := trampolinePage_lt
    omega
  obtain ⟨mid, done, rest, shared, grown, copied, undone⟩ := uvmshareFrom_spec building.table
    disjoint below fun q _ upper => by
      have := trapframePage_lt
      have := maxPage_lt
      rw [leaves q (by omega), bareLeaf, if_neg (by omega), if_neg (by omega)]
  refine ⟨mid, done, rest, shared, building.grown grown, fun finished q low => ?_,
    fun failed q low other other' => ?_⟩
  · rw [copied finished q low, leaves q low, zero_add]
    simp only [Nat.zero_le, true_and, lt_pages]
    split
    · exact RadixFormat.lookup_congr kept
    · rfl
  · rw [undone failed q low, leaves q low, bareLeaf, if_neg other, if_neg other', ite_self]

/-- A call of `kclone` never panics, and either fails and leaves everything as before or makes a
thread that shares the parent's pages. -/
theorem kclone_all_or_nothing (sound : Sound s p old) (bound : (s.procs p).sz ≤ TRAPFRAME)
    (fcn stack arg : ℕ) :
    ∃ t result, s.kclone p fcn stack arg = some (t, result) ∧
      (result = none → Undone s old t) ∧
      ∀ pid, result = some pid → ∃ np trapframe sigTf new, (t.procs np).pid = pid ∧
        Cloned s p old t np trapframe sigTf new := by
  obtain ⟨free, holds⟩ := sound.freelist
  rw [State.kclone]
  rcases allocproc_spec holds sound.clean with ⟨full, ran⟩ | ⟨np, m, later, found,
    ⟨cleared, ran, reset, holding⟩ | ⟨trapframe, sigTf, new, ran, apart, building, leaves⟩⟩
  · refine ⟨s, none, by rw [ran], fun _ => ?_, by simp⟩
    exact Undone.of_holding sound holds (Holding.start holds) rfl rfl (fun _ _ => rfl) (by simp [full])
  · refine ⟨_, none, by rw [ran], fun _ => ?_, by simp⟩
    refine Undone.of_holding sound holds holding rfl rfl (fun q other => ?_) fun q same => ?_
    · refine Function.update_of_ne ?_ _ _
      rintro rfl
      exact other found
    · obtain rfl := Option.some.inj (found.symm.trans same)
      simpa [State.setProc] using reset
  · have unused : (s.procs np).state = .UNUSED := by simpa using List.find?_some found
    have differ : p ≠ np := by
      rintro rfl
      exact sound.used unused
    obtain ⟨mid, done, rest, shared, building', copied, unshared⟩ :=
      uvmshare_spec sound bound holds building leaves
    have parent : (State.setProc { s with nextpid := s.nextpid + 1 } m np
        ((s.procs np).handedOut s.nextpid s.forkret trapframe sigTf new)).procs p = s.procs p :=
      Function.update_of_ne differ _ _
    have child : (State.setProc { s with nextpid := s.nextpid + 1 } m np
        ((s.procs np).handedOut s.nextpid s.forkret trapframe sigTf new)).procs np =
          (s.procs np).handedOut s.nextpid s.forkret trapframe sigTf new :=
      Function.update_self _ _ _
    have bare : (s.procs np).sz = 0 := (sound.clean np unused).2.2
    rw [ran]
    simp only [parent, child, sound.pagetable]
    rw [show ((s.procs np).handedOut s.nextpid s.forkret trapframe sigTf new).pagetable =
      some new from rfl]
    simp only [State.setProc]
    rw [shared]
    cases done with
    | false =>
        obtain ⟨after, last, freed, holding⟩ := freeproc_tabled building' apart
          (unshared rfl)
          (p := (s.procs np).handedOut s.nextpid s.forkret trapframe sigTf new) rfl rfl rfl rfl bare
        refine ⟨_, none, by simp only [freed]; rfl, fun _ => ?_, by simp⟩
        refine Undone.of_holding sound holds holding rfl rfl (fun q other => ?_) fun q same => ?_
        · have elsewhere : q ≠ np := by
            rintro rfl
            exact other found
          exact (Function.update_of_ne elsewhere _ _).trans (Function.update_of_ne elsewhere _ _)
        · obtain rfl := Option.some.inj (found.symm.trans same)
          simp [Proc.cleared]
    | true =>
        obtain ⟨src, entered⟩ := Option.ne_none_iff_exists'.mp sound.trapframe
        obtain ⟨cwd, there⟩ := Option.ne_none_iff_exists'.mp sound.cwd
        obtain ⟨fileRef, dup, -⟩ := dupFiles_spec sound.files
        obtain ⟨final, same⟩ : Building free s.machine.mem (fun f => f = sigTf ∨ f = trapframe) new
            (shareTrapframe mid trapframe src fcn stack arg) rest ∧
              ∀ q, leaf (shareTrapframe mid trapframe src fcn stack arg).mem new q =
                leaf mid.mem new q :=
          building'.written (.inr rfl) rfl fun f other => shareTrapframe_other mid src fcn stack arg other
        simp only [State.startThread, Function.update_of_ne differ, Function.update_self, entered,
          there, dup]
        refine ⟨_, _, rfl, by simp, fun pid made => ⟨np, trapframe, sigTf, new, ?_, ?_⟩⟩
        · simpa [State.setProc] using Option.some.inj made
        · simp only [State.setProc]
          refine Cloned.of_building holds final found ?_ ?_ ?_ fun q low' => ?_
          · simp [Proc.handedOut, Proc.prepared]
          · simp [Proc.handedOut, Proc.prepared]
          · simp [Proc.handedOut, Proc.prepared]
          · rw [same]
            exact copied rfl q low'

end Calls

/-! ### A parent with one page of memory -/

def spare : List Frame := [6, 7, 8, 9, 10, 11, 12]

def small (denied : ℕ → Bool) : State 2 where
  machine := {
    kmem := Kmem.empty.kfreeAll spare
    mem := fun f i =>
      if i.val = 0 then
        if f = 1 then ⟨2, PTE_V⟩
        else if f = 2 then ⟨3, PTE_V⟩
        else if f = 3 then ⟨4, PTE_V ||| PTE_R ||| PTE_W ||| PTE_U⟩
        else ⟨0, 0⟩
      else ⟨0, 0⟩
    calls := 0
    denied := denied }
  procs q := {
    state := if q.val = 0 then .RUNNING else .UNUSED
    chan := 0
    killed := 0
    xstate := 0
    pid := if q.val = 0 then 1 else 0
    parent := none
    kstack := 0
    sz := if q.val = 0 then 4096 else 0
    pagetable := if q.val = 0 then some 1 else none
    trapframe := if q.val = 0 then some 5 else none
    context := ⟨0, 0, 0⟩
    ofile := fun _ => none
    cwd := if q.val = 0 then some 1 else none
    name := List.replicate 16 0
    pendingSignals := 0
    signalHandlers := fun _ => SIG_DFL
    sigTf := none
    isHandlingSignal := false
    isThread := false
    memParent := none }
  nextpid := 2
  fileRef _ := 0
  inodeRef _ := 1
  forkret := 0

theorem small_sound (denied : ℕ → Bool) : Sound (small denied) 0 1 := by
  have distinct : ∀ f, ([] : List Frame).count f + spare.count f ≤ 1 := by
    intro f
    rw [List.count_nil, zero_add]
    exact List.nodup_iff_count_le_one.mp (by decide) f
  obtain ⟨free, holds, count⟩ := Kmem.holds_empty.kfreeAll distinct
  have listed : (small denied).machine.kmem.Holds free := holds
  have high : ∀ f : ℕ, f ∈ free → 6 ≤ f := by
    intro f inside
    rw [← List.count_pos_iff, count, List.count_nil, zero_add, List.count_pos_iff] at inside
    exact (show ∀ f : ℕ, f ∈ spare → 6 ≤ f by decide) f inside
  have first : ∀ r i, ((small denied).machine.mem r i).valid = true → i = 0 := by
    intro r i valid
    by_contra other
    simp [small, other, Word.valid] at valid
  have linked : ∀ f : ℕ, InTable (small denied).machine.mem 1 f → f ≤ 3 := by
    rintro f (rfl | ⟨i, valid, rfl | ⟨j, valid', here⟩⟩)
    · decide
    · obtain rfl := first _ i valid
      exact (show 2 ≤ 3 by decide)
    · obtain rfl := first _ i valid
      obtain rfl := first _ j valid'
      exact (show f = 3 from here).le
  refine ⟨⟨free, listed⟩, by simp [small], by simp [small], by simp [small], fun f inside => ?_,
    fun q unused => ?_, by simp [small], by simp [small]⟩
  · rw [listed.onFreelist]
    intro taken
    exact absurd ((high f taken).trans (linked f inside)) (by decide)
  · have other : q ≠ 0 := by
      rintro rfl
      simp [small] at unused
    simp [small, other]

/-- A call for which `uvmshare` finds no page for the first of its tables, and one that is given
all the pages it asks for. -/
theorem kclone_all_or_nothing_small :
    (∃ t, (small fun k => k = 5).kclone 0 0 0 0 = some (t, none) ∧ t.machine.calls = 6 ∧
      Undone (small fun k => k = 5) 1 t) ∧
    ∃ t np trapframe sigTf new, (small fun _ => false).kclone 0 0 0 0 = some (t, some 2) ∧
      (t.procs np).pid = 2 ∧ Cloned (small fun _ => false) 0 1 t np trapframe sigTf new := by
  constructor
  · obtain ⟨t, result, ran, undone, -⟩ := kclone_all_or_nothing (small_sound fun k => k = 5)
      (by decide) 0 0 0
    have failed : ((small fun k => k = 5).kclone 0 0 0 0).map (fun r => (r.2, r.1.machine.calls)) =
        some (none, 6) := by decide +kernel
    rw [ran, Option.map_some, Option.some.injEq, Prod.mk.injEq] at failed
    obtain ⟨rfl, calls⟩ := failed
    exact ⟨t, ran, calls, undone rfl⟩
  · obtain ⟨t, result, ran, -, made⟩ := kclone_all_or_nothing (small_sound fun _ => false)
      (by decide) 0 0 0
    have given : ((small fun _ => false).kclone 0 0 0 0).map Prod.snd = some (some 2) := by
      decide +kernel
    rw [ran, Option.map_some, Option.some.injEq] at given
    obtain rfl : result = some 2 := given
    obtain ⟨np, trapframe, sigTf, new, pid, cloned⟩ := made 2 rfl
    exact ⟨t, np, trapframe, sigTf, new, ran, pid, cloned⟩

end OsLab.Kernel.Clone
