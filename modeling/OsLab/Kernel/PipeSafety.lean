import OsLab.Kernel.Pipe
import OsLab.Library.Ring

/-!
What a pipe guarantees: readers take out what writers have put in, each byte once and in order, and
nobody sleeps at a pipe that is ready, but for readers after a writer that has been killed.
-/

namespace OsLab.Kernel.Pipe

open OsLab.Library OsLab.Kernel.Threads OsLab.Kernel.Signal

variable {p : ℕ}

abbrev PipeState (p : ℕ) := State p Unit Chan (Point p) (Data p)

/-! ### The ring -/

namespace Data

def count (data : Data p) : ℕ := data.sent.length - data.received.length

def content (data : Data p) : List UInt8 :=
  Ring.contents PIPESIZE data.slots (data.received.length % PIPESIZE) data.count

structure Sound (data : Data p) : Prop where
  nread : data.nread = uint data.received.length
  nwrite : data.nwrite = uint data.sent.length
  fifo : data.received ++ data.content = data.sent
  bound : data.count ≤ PIPESIZE

variable {data : Data p}

theorem length_eq (sound : data.Sound) :
    data.sent.length = data.received.length + data.count := by
  have lengths := congrArg List.length sound.fifo
  simp only [List.length_append, content, Ring.length_contents] at lengths
  exact lengths.symm

theorem uint_mod (x : ℕ) : uint x % PIPESIZE = x % PIPESIZE :=
  Nat.mod_mod_of_dvd x ⟨2 ^ 23, rfl⟩

theorem uint_succ (x : ℕ) : uint (uint x + 1) = uint (x + 1) := Nat.mod_add_mod x _ 1

theorem empty_iff (sound : data.Sound) : data.nread = data.nwrite ↔ data.count = 0 := by
  have bound := sound.bound
  rw [sound.nread, sound.nwrite, length_eq sound]
  simp only [uint, PIPESIZE] at bound ⊢
  omega

theorem full_iff (sound : data.Sound) :
    data.nwrite = uint (data.nread + PIPESIZE) ↔ data.count = PIPESIZE := by
  have bound := sound.bound
  rw [sound.nread, sound.nwrite, length_eq sound]
  simp only [uint, PIPESIZE] at bound ⊢
  omega

theorem valid (sound : data.Sound) : Ring.Valid PIPESIZE (data.received.length % PIPESIZE)
    (data.nwrite % PIPESIZE) data.count where
  head_lt := Nat.mod_lt _ (by decide)
  count_le := sound.bound
  tail_eq := by rw [sound.nwrite, uint_mod, length_eq sound, Nat.mod_add_mod]

theorem Sound.store (sound : data.Sound) (room : data.nwrite ≠ uint (data.nread + PIPESIZE))
    (ch : UInt8) : (data.store ch).Sound := by
  have length := length_eq sound
  have below : data.count < PIPESIZE :=
    lt_of_le_of_ne sound.bound fun full => room ((full_iff sound).mpr full)
  have count : (data.store ch).count = data.count + 1 := by
    simp only [Data.count, Data.store, List.length_append, List.length_singleton]
    omega
  have content : (data.store ch).content = data.content ++ [ch] := by
    rw [Data.content, count]
    exact Ring.contents_push data.slots ch (valid sound) below
  refine ⟨sound.nread, ?_, ?_, by omega⟩
  · simp only [Data.store, List.length_append, List.length_singleton, sound.nwrite]
    exact uint_succ _
  · rw [content]
    simp only [Data.store]
    rw [← List.append_assoc, sound.fifo]

theorem Sound.take (sound : data.Sound) (some : data.nread ≠ data.nwrite) : data.take.Sound := by
  have length := length_eq sound
  have bound := sound.bound
  have positive : 0 < data.count := Nat.pos_of_ne_zero fun none => some ((empty_iff sound).mpr none)
  have count : data.take.count = data.count - 1 := by
    simp only [Data.count, Data.take, List.length_append, List.length_singleton]
    omega
  have content : data.content =
      data.slots (data.nread % PIPESIZE) :: data.take.content := by
    rw [Data.content, Data.content, count, sound.nread, uint_mod]
    rw [Ring.contents_pop data.slots (valid sound).head_lt positive]
    simp [Data.take]
  refine ⟨?_, sound.nwrite, ?_, by omega⟩
  · simp only [Data.take, List.length_append, List.length_singleton, sound.nread]
    exact uint_succ _
  · rw [← show data.received ++ data.content = data.take.sent from sound.fifo, content]
    simp [Data.take]

theorem Sound.congr {other : Data p} (sound : data.Sound) (slots : other.slots = data.slots)
    (nread : other.nread = data.nread) (nwrite : other.nwrite = data.nwrite)
    (sent : other.sent = data.sent) (received : other.received = data.received) : other.Sound := by
  have count : other.count = data.count := by rw [Data.count, sent, received, Data.count]
  have content : other.content = data.content := by
    rw [Data.content, slots, received, count, Data.content]
  exact ⟨by rw [nread, received, sound.nread], by rw [nwrite, sent, sound.nwrite],
    by rw [received, content, sent, sound.fifo], by rw [count]; exact sound.bound⟩

/-- A writer leaves without waking the readers only where it is killed or nobody reads. -/
def Left (data : Data p) : Prop :=
  data.abandoned = true → data.readopen = false ∨ ∃ q, data.killed q = true

end Data

/-! ### Waiting -/

/-- A reader has reason to sleep at an empty pipe, a writer at a full one. -/
def Waits (data : Data p) : Chan → Prop
  | .nread => data.abandoned = true ∨ data.nread = data.nwrite ∧ data.writeopen = true
  | .nwrite => data.nwrite = uint (data.nread + PIPESIZE) ∧ data.readopen = true

def CallerKnows (data : Data p) : Caller → Prop
  | .pipewrite _ _ => data.readopen = true
  | .piperead _ => data.nread = data.nwrite ∧ data.writeopen = true

def Knows : Point p → Data p → Prop
  | .killedAcquire caller, data | .killedRead caller, data => CallerKnows data caller
  | .killedRelease caller k, data | .killedTest caller k, data =>
      CallerKnows data caller ∧ (k = true → ∃ q, data.killed q = true)
  | .writeFull _ _, data => data.readopen = true
  | .writeFullWakeup _ _, data | .writeSleep _ _, data =>
      data.nwrite = uint (data.nread + PIPESIZE) ∧ data.readopen = true
  | .writeCopy _ _, data => data.nwrite ≠ uint (data.nread + PIPESIZE)
  | .readSleep _, data => data.nread = data.nwrite ∧ data.writeopen = true
  | .readTake _ _, data => data.nread ≠ data.nwrite
  | .closeWakeup writable, data | .closeTest writable, data | .closeRelease writable, data =>
      data.opened writable = false
  | .closeLast _, data => data.readopen = false ∧ data.writeopen = false
  | _, _ => True

/-- Points from which `wakeup` on a channel is still to be called: in the loop of `pipewrite` once
it has put in a byte. -/
def Waking (m : Point p) (data : Data p) : Chan → Prop
  | .nread =>
      match m with
      | .writeLoop _ _ | .writeOpen _ _ | .writeFull _ _ | .writeCopy _ _
      | .killedAcquire (.pipewrite _ _) | .killedRead (.pipewrite _ _)
      | .killedRelease (.pipewrite _ _) _ | .killedTest (.pipewrite _ _) _ =>
          data.unannounced = true
      | .writeFullWakeup _ _ | .writeWakeup _ | .closeWakeup true => True
      | _ => False
  | .nwrite =>
      match m with
      | .readCopy _ _ | .readTake _ _ | .readWakeup _ | .closeWakeup false => True
      | _ => False

def under : Point p → Option Unit
  | .user | .writeAcquire _ | .readAcquire _ | .closeAcquire _ | .kfree _ | .kill _ _ _
  | .killTest _ _ _ | .killNext _ _ _ | .killDone _ => none
  | _ => some ()

def monitor : Monitor (policy (p := p)) where
  sound data := data.Sound ∧ data.Left
  rest _ _ := True
  own _ _ _ := True
  knows := Knows
  waits := Waits
  waking := Waking
  under := under
  unknown m data free := by cases m <;> simp_all [under, Knows]
  under_held self m lk locked := by cases m <;> simp_all [under, program, held]
  waking_held self m data chan waking := by
    cases m <;> cases chan <;> simp_all [Waking, program, held]

variable {s t : PipeState p} {self : Fin p} {m : Point p}

theorem allowed_still {instr : Instr p Unit Chan (Point p) (Data p)}
    (inv : monitor.Inv s) (threads : policy.Allowed s self m instr)
    (data : instr.data s.data = s.data) (knows : monitor.Knows self s.data instr.next)
    (waking : ∀ chan, Waking m s.data chan →
      Waits s.data chan ∨ monitor.Wakes s.data chan instr.next) : monitor.Allowed s self m instr where
  threads := threads
  sound := by
    rw [data]
    exact inv.sound
  locked lk := .inr (by rw [data]; exact .refl s.data lk)
  others _ _ _ _ own := own
  released _ _ _ := trivial
  knows _ := by rwa [data]
  spawns _ _ _ _ _ := trivial
  wakes chan due := by
    rw [data]
    exact due.elim .inl (waking chan)

theorem allowed_change {data : Data p} {next : Point p} (locked : .named () ∈ held self m)
    (threads : policy.Allowed s self m (.goto data next)) (sound : data.Sound) (left : data.Left)
    (knows : Knows next data)
    (waking : ∀ chan, Waits s.data chan ∨ Waking m s.data chan →
      Waits data chan ∨ Waking next data chan) :
    monitor.Allowed s self m (.goto data next) where
  threads := threads
  sound := ⟨sound, left⟩
  locked _ := .inl locked
  others _ _ _ _ own := own
  released _ _ _ := trivial
  knows _ := ⟨trivial, knows⟩
  wakes := waking
  spawns _ _ _ _ _ := trivial

theorem allowed_announce {next : Point p} (inv : monitor.Inv s) (locked : .named () ∈ held self m)
    (threads : policy.Allowed s self m (.goto s.data.announce next))
    (knows : Knows next s.data.announce) (call : Waking next s.data.announce .nread)
    (other : ¬ Waking m s.data .nwrite) :
    monitor.Allowed s self m (.goto s.data.announce next) := by
  refine allowed_change locked threads (inv.sound.1.congr rfl rfl rfl rfl rfl)
    (fun none => by cases none) knows ?_
  rintro (_ | _) due
  · exact .inr call
  · exact .inl (due.resolve_right other)

theorem allowed_abandon (inv : monitor.Inv s) (locked : .named () ∈ held self m)
    (threads : policy.Allowed s self m (.goto s.data.abandon (.writeRelease (-1))))
    (cause : s.data.readopen = false ∨ ∃ q, s.data.killed q = true)
    (writer : Waking m s.data .nread → s.data.unannounced = true)
    (other : ¬ Waking m s.data .nwrite) :
    monitor.Allowed s self m (.goto s.data.abandon (.writeRelease (-1))) := by
  refine allowed_change locked threads (inv.sound.1.congr rfl rfl rfl rfl rfl) (fun _ => cause)
    trivial ?_
  rintro (_ | _) due
  · refine .inl ?_
    rcases due with (left | empty) | fresh
    · exact .inl (by simp [Data.abandon, left])
    · exact .inr empty
    · exact .inl (by simp [Data.abandon, writer fresh])
  · exact .inl (due.resolve_right other)

theorem kill_keeps (data : Data p) (q : Fin p) (signum : ℤ) :
    monitor.Keeps data (data.kill q signum) () := by
  have more : ∀ r, data.killed r = true → Function.update data.killed q true r = true := by
    intro r already
    by_cases same : r = q
    · rw [same, Function.update_self]
    · rwa [Function.update_of_ne same]
  rw [Data.kill]
  split
  · refine ⟨id, fun m _ known => ?_, fun chan _ waits => ?_, fun chan _ m waking => ?_⟩
    · cases m with
      | killedRelease caller k | killedTest caller k =>
          refine ⟨?_, fun killed => (known.2 killed).imp more⟩
          have caller_knows := known.1
          cases caller <;> exact caller_knows
      | killedAcquire caller | killedRead caller => cases caller <;> exact known
      | closeWakeup writable | closeTest writable | closeRelease writable =>
          cases writable <;> exact known
      | _ => exact known
    · cases chan <;> exact waits
    · cases chan <;> exact waking
  · exact .refl data ()

theorem kill_sound {data : Data p} (sound : data.Sound ∧ data.Left) (q : Fin p) (signum : ℤ) :
    (data.kill q signum).Sound ∧ (data.kill q signum).Left := by
  rw [Data.kill]
  split
  · refine ⟨sound.1.congr rfl rfl rfl rfl rfl, fun left => ?_⟩
    exact (sound.2 left).imp_right fun _ => ⟨q, Function.update_self q true data.killed⟩
  · exact sound

theorem keeps_of_eq {data other : Data p} (nread : other.nread = data.nread)
    (nwrite : other.nwrite = data.nwrite) (readopen : other.readopen = data.readopen)
    (writeopen : other.writeopen = data.writeopen) (killed : other.killed = data.killed)
    (unannounced : other.unannounced = data.unannounced)
    (abandoned : other.abandoned = data.abandoned) : monitor.Keeps data other () := by
  have opened : ∀ w, other.opened w = data.opened w := by
    rintro (_ | _)
    · exact readopen
    · exact writeopen
  have caller_knows : ∀ caller, CallerKnows data caller → CallerKnows other caller := by
    rintro (⟨n, i⟩ | n) <;> simp [CallerKnows, nread, nwrite, readopen, writeopen]
  refine ⟨id, fun m _ known => ?_, fun chan _ waits => ?_, fun chan _ m waking => ?_⟩
  · replace known : Knows m data := known
    show Knows m other
    cases m with
    | killedAcquire caller | killedRead caller => exact caller_knows caller known
    | killedRelease caller k | killedTest caller k =>
        exact ⟨caller_knows caller known.1, killed ▸ known.2⟩
    | _ =>
        first
          | exact trivial
          | simpa [Knows, nread, nwrite, readopen, writeopen, opened] using known
  · replace waits : Waits data chan := waits
    show Waits other chan
    cases chan <;> simpa [Waits, nread, nwrite, readopen, writeopen, abandoned] using waits
  · replace waking : Waking m data chan := waking
    show Waking m other chan
    simpa only [Waking, unannounced] using waking

theorem allowed_unlocked {data : Data p} {next : Point p}
    (threads : policy.Allowed s self m (.goto data next)) (sound : data.Sound) (left : data.Left)
    (keeps : monitor.Keeps s.data data ()) (knows : Knows next data)
    (quiet : ∀ chan, ¬ Waking m s.data chan) : monitor.Allowed s self m (.goto data next) where
  threads := threads
  sound := ⟨sound, left⟩
  locked _ := .inr keeps
  others _ _ _ _ own := own
  released _ _ _ := trivial
  knows _ := ⟨trivial, knows⟩
  wakes chan due := .inl (keeps.waits chan rfl (due.resolve_right (quiet chan)))
  spawns _ _ _ _ _ := trivial

theorem allowed_kill {pid signum : ℤ} {q : Fin p} {instr : Instr p Unit Chan (Point p) (Data p)}
    (inv : monitor.Inv s) (threads : policy.Allowed s self (.killTest pid signum q) instr)
    (data : instr.data s.data = s.data.kill q signum) (next : instr.next = .main (.killDone q)) :
    monitor.Allowed s self (.killTest pid signum q) instr where
  threads := threads
  sound := by
    rw [data]
    exact kill_sound inv.sound q signum
  locked _ := .inr (data ▸ kill_keeps s.data q signum)
  others _ _ _ _ own := own
  released _ _ _ := trivial
  knows _ := by
    rw [next]
    exact ⟨trivial, trivial⟩
  wakes chan due := by
    rw [data]
    refine due.elim (fun waits => .inl ((kill_keeps s.data q signum).waits chan rfl waits)) ?_
    intro waking
    cases chan <;> cases waking
  spawns _ _ _ _ _ := trivial

theorem allowed {input : Input} {instr : Instr p Unit Chan (Point p) (Data p)}
    (inv : monitor.Inv s) (here : s.pc self = .main m)
    (ran : program.code self m s.state s.data input = some instr) :
    monitor.Allowed s self m instr := by
  have sound := inv.sound
  have knows := inv.knows self
  rw [here] at knows
  replace knows := knows.2
  cases m with
  | writeLoop n i =>
      simp only [program, code] at ran
      split at ran <;> obtain rfl := Option.some.inj ran
      · refine allowed_still inv (by simp [Policy.Allowed, program, held, policy]) rfl ⟨trivial, trivial⟩ ?_
        rintro (_ | _) waking
        · exact .inr waking
        · cases waking
      · exact allowed_announce inv (by simp [held])
          (by simp [Policy.Allowed, program, held, policy]) trivial trivial id
  | writeOpen n i =>
      simp only [program, code] at ran
      split at ran <;> obtain rfl := Option.some.inj ran
      · rename_i opened
        refine allowed_still inv (by simp [Policy.Allowed, program, held, policy]) rfl ⟨trivial, opened⟩ ?_
        rintro (_ | _) waking
        · exact .inr waking
        · cases waking
      · rename_i closed
        exact allowed_abandon inv (by simp [held])
          (by simp [Policy.Allowed, program, held, policy]) (.inl (by simpa using closed)) id id
  | writeFull n i =>
      simp only [program, code] at ran
      split at ran <;> obtain rfl := Option.some.inj ran
      · rename_i full
        exact allowed_announce inv (by simp [held])
          (by simp [Policy.Allowed, program, held, policy]) ⟨full, knows⟩ trivial id
      · rename_i room
        refine allowed_still inv (by simp [Policy.Allowed, program, held, policy]) rfl ⟨trivial, room⟩ ?_
        rintro (_ | _) waking
        · exact .inr waking
        · cases waking
  | writeCopy n i =>
      simp only [program, code] at ran
      split at ran
      · rename_i ch
        obtain rfl := Option.some.inj ran
        refine allowed_change (by simp [held]) (by simp [Policy.Allowed, program, held, policy])
          (sound.1.store knows ch) sound.2 trivial ?_
        rintro (_ | _) due
        · exact .inr rfl
        · exact absurd (due.resolve_right id).1 knows
      · obtain rfl := Option.some.inj ran
        exact allowed_announce inv (by simp [held])
          (by simp [Policy.Allowed, program, held, policy]) trivial trivial id
      · cases ran
  | readLoop n =>
      simp only [program, code] at ran
      split at ran <;> obtain rfl := Option.some.inj ran
      · rename_i empty
        refine allowed_still inv (by simp [Policy.Allowed, program, held, policy]) rfl ⟨trivial, empty⟩ ?_
        rintro (_ | _) waking <;> cases waking
      · refine allowed_still inv (by simp [Policy.Allowed, program, held, policy]) rfl ⟨trivial, trivial⟩ ?_
        rintro (_ | _) waking <;> cases waking
  | readCopy n i =>
      simp only [program, code] at ran
      split at ran <;> obtain rfl := Option.some.inj ran
      · rename_i more
        refine allowed_still inv (by simp [Policy.Allowed, program, held, policy]) rfl ⟨trivial, more.2⟩ ?_
        rintro (_ | _) waking
        · cases waking
        · exact .inr trivial
      · refine allowed_still inv (by simp [Policy.Allowed, program, held, policy]) rfl ⟨trivial, trivial⟩ ?_
        rintro (_ | _) waking
        · cases waking
        · exact .inr trivial
  | readTake n i =>
      simp only [program, code] at ran
      split at ran
      · obtain rfl := Option.some.inj ran
        refine allowed_change (by simp [held]) (by simp [Policy.Allowed, program, held, policy])
          (sound.1.take knows) sound.2 trivial ?_
        rintro (_ | _) due
        · rcases due.resolve_right id with left | empty
          · exact .inl (.inl left)
          · exact absurd empty.1 knows
        · exact .inr trivial
      · obtain rfl := Option.some.inj ran
        refine allowed_still inv (by simp [Policy.Allowed, program, held, policy]) rfl ⟨trivial, trivial⟩ ?_
        rintro (_ | _) waking
        · cases waking
        · exact .inr trivial
      · cases ran
  | closeSet writable =>
      obtain rfl := Option.some.inj ran
      cases writable with
      | true =>
          refine allowed_change (by simp [held]) (by simp [Policy.Allowed, program, held, policy])
            (sound.1.congr rfl rfl rfl rfl rfl) (fun none => by cases none) rfl ?_
          rintro (_ | _) due
          · exact .inr trivial
          · exact .inl (due.resolve_right id)
      | false =>
          refine allowed_change (by simp [held]) (by simp [Policy.Allowed, program, held, policy])
            (sound.1.congr rfl rfl rfl rfl rfl) (fun _ => .inl rfl) rfl ?_
          rintro (_ | _) due
          · exact .inl (due.resolve_right id)
          · exact .inr trivial
  | killTest pid signum q =>
      have fits := inv.threads.fits self
      simp only [here, Pc.Fits, policy] at fits
      simp only [program, code] at ran
      split at ran
      · split at ran
        · rename_i sleeping
          obtain rfl := Option.some.inj ran
          refine allowed_kill inv ⟨by simp [program, held], by simp [program, held],
            by simp [policy], .inr ⟨?_, rfl, .inl ⟨sleeping, rfl⟩⟩⟩ rfl rfl
          rintro rfl
          simp [sleeping] at fits
        · obtain rfl := Option.some.inj ran
          exact allowed_kill inv (by simp [Policy.Allowed, program, held, policy]) rfl rfl
      · obtain rfl := Option.some.inj ran
        refine allowed_still inv (by simp [Policy.Allowed, program, held, policy]) rfl ⟨trivial, trivial⟩ ?_
        rintro (_ | _) waking <;> cases waking
  | killedTest caller k =>
      cases caller with
      | pipewrite n i =>
          simp only [program, code] at ran
          split at ran <;> obtain rfl := Option.some.inj ran
          · rename_i killed
            exact allowed_abandon inv (by simp [held])
              (by simp [Policy.Allowed, program, held, policy]) (.inr (knows.2 killed)) id id
          · refine allowed_still inv (by simp [Policy.Allowed, program, held, policy]) rfl ⟨trivial, knows.1⟩ ?_
            rintro (_ | _) waking
            · exact .inr waking
            · cases waking
      | piperead n =>
          simp only [program, code] at ran
          split at ran <;> obtain rfl := Option.some.inj ran
          · refine allowed_still inv (by simp [Policy.Allowed, program, held, policy]) rfl ⟨trivial, trivial⟩ ?_
            rintro (_ | _) waking <;> cases waking
          · refine allowed_still inv (by simp [Policy.Allowed, program, held, policy]) rfl ⟨trivial, knows.1⟩ ?_
            rintro (_ | _) waking <;> cases waking
  | killedRelease caller k =>
      obtain rfl := Option.some.inj ran
      refine allowed_still inv ⟨by simp [program, held], fun other => ?_, rfl, by simp [policy]⟩ rfl
        ⟨trivial, knows⟩ ?_
      · simp only [program, held, List.mem_cons, List.not_mem_nil, or_false]
        exact ⟨fun same => by simp [same], fun both => both.2.resolve_left both.1⟩
      · rintro (_ | _) waking
        · cases caller with
          | pipewrite n i => exact .inr waking
          | piperead n => cases waking
        · cases waking
  | killedRead caller =>
      obtain rfl := Option.some.inj ran
      refine allowed_still inv (by simp [Policy.Allowed, program, held, policy]) rfl
        ⟨trivial, knows, fun killed => ⟨self, killed⟩⟩ ?_
      rintro (_ | _) waking
      · cases caller with
        | pipewrite n i => exact .inr waking
        | piperead n => cases waking
      · cases waking
  | killedAcquire caller =>
      obtain rfl := Option.some.inj ran
      refine allowed_still inv (by simp [Policy.Allowed, program, held, policy]) rfl ⟨trivial, knows⟩ ?_
      rintro (_ | _) waking
      · cases caller with
        | pipewrite n i => exact .inr waking
        | piperead n => cases waking
      · cases waking
  | writeSleep n i =>
      obtain rfl := Option.some.inj ran
      refine allowed_still inv (by simp [Policy.Allowed, program, held, policy]) rfl
        ⟨⟨knows, trivial⟩, trivial, fun _ _ => trivial⟩ ?_
      rintro (_ | _) waking <;> cases waking
  | readSleep n =>
      obtain rfl := Option.some.inj ran
      refine allowed_still inv (by simp [Policy.Allowed, program, held, policy]) rfl
        ⟨⟨.inr knows, trivial⟩, trivial, fun _ _ => trivial⟩ ?_
      rintro (_ | _) waking <;> cases waking
  | writeFullWakeup n i =>
      obtain rfl := Option.some.inj ran
      refine allowed_still inv (by simp [Policy.Allowed, program, held, policy]) rfl ⟨trivial, knows⟩ ?_
      rintro (_ | _) waking
      · exact .inr (.inl rfl)
      · cases waking
  | writeWakeup i =>
      obtain rfl := Option.some.inj ran
      refine allowed_still inv (by simp [Policy.Allowed, program, held, policy]) rfl ⟨trivial, trivial⟩ ?_
      rintro (_ | _) waking
      · exact .inr (.inl rfl)
      · cases waking
  | readWakeup i =>
      obtain rfl := Option.some.inj ran
      refine allowed_still inv (by simp [Policy.Allowed, program, held, policy]) rfl ⟨trivial, trivial⟩ ?_
      rintro (_ | _) waking
      · cases waking
      · exact .inr (.inl rfl)
  | closeWakeup writable =>
      obtain rfl := Option.some.inj ran
      refine allowed_still inv (by simp [Policy.Allowed, program, held, policy]) rfl ⟨trivial, knows⟩ ?_
      rintro (_ | _) waking <;> cases writable
      · cases waking
      · exact .inr (.inl rfl)
      · exact .inr (.inl rfl)
      · cases waking
  | kfree writable =>
      obtain rfl := Option.some.inj ran
      refine allowed_unlocked (by simp [Policy.Allowed, program, held, policy])
        (sound.1.congr rfl rfl rfl rfl rfl) sound.2 (keeps_of_eq rfl rfl rfl rfl rfl rfl rfl)
        trivial ?_
      rintro (_ | _) waking <;> cases waking
  | user =>
      have quiet : ∀ chan, ¬ Waking (.user : Point p) s.data chan := by
        rintro (_ | _) waking <;> cases waking
      simp only [program, code] at ran
      repeat' split at ran
      case h_3 =>
        obtain rfl := Option.some.inj ran
        exact allowed_unlocked (by simp [Policy.Allowed, program, held, policy])
          (sound.1.congr rfl rfl rfl rfl rfl) sound.2 (keeps_of_eq rfl rfl rfl rfl rfl rfl rfl)
          trivial quiet
      all_goals first
        | cases ran; done
        | obtain rfl := Option.some.inj ran
      all_goals
        exact allowed_still inv (by simp [Policy.Allowed, program, held, policy]) rfl ⟨trivial, trivial⟩
          fun chan waking => absurd waking (quiet chan)
  | kill pid signum i =>
      simp only [program, code] at ran
      split at ran <;> obtain rfl := Option.some.inj ran
      all_goals
        refine allowed_still inv (by simp [Policy.Allowed, program, held, policy]) rfl ⟨trivial, trivial⟩ ?_
        rintro (_ | _) waking <;> cases waking
  | closeTest writable =>
      simp only [program, code] at ran
      split at ran <;> obtain rfl := Option.some.inj ran
      · rename_i both
        refine allowed_still inv (by simp [Policy.Allowed, program, held, policy]) rfl ⟨trivial, both⟩ ?_
        rintro (_ | _) waking <;> cases waking
      · refine allowed_still inv (by simp [Policy.Allowed, program, held, policy]) rfl ⟨trivial, knows⟩ ?_
        rintro (_ | _) waking <;> cases waking
  | _ =>
      obtain rfl := Option.some.inj ran
      refine allowed_still inv (by simp [Policy.Allowed, program, held, policy]) rfl ⟨trivial, trivial⟩ ?_
      rintro (_ | _) waking <;> cases waking

theorem start_inv (pid : Fin p → ℤ) (slots : ℕ → UInt8) : monitor.Inv (start pid slots) := by
  refine Monitor.Inv.unstarted (fun _ => rfl) (fun _ => rfl) (fun _ => rfl) (fun _ => rfl)
    (fun _ => rfl) ⟨⟨rfl, rfl, ?_, ?_⟩, ?_⟩ (fun _ => trivial) fun _ => trivial
  · simp [start, Data.content, Data.count]
  · simp [start, Data.count]
  · simp [start, Data.Left]

theorem inv_of_reachable {s : PipeState p} (reachable : system.Reachable s) : monitor.Inv s := by
  refine System.Reachable.invariant ?_ ?_ reachable
  · rintro _ ⟨pid, slots, rfl⟩
    exact start_inv pid slots
  · rintro before ⟨self, event⟩ after inv taken
    exact inv.step (fun m input instr here _ ran => allowed inv here ran) taken

/-- In every interleaving the readers have taken out what the writers have put in, in order and up
to what is in the pipe. -/
theorem pipe_fifo {s : PipeState p} (reachable : system.Reachable s) :
    s.data.received ++ s.data.content = s.data.sent ∧ s.data.content.length ≤ PIPESIZE ∧
      s.data.nread = uint s.data.received.length ∧ s.data.nwrite = uint s.data.sent.length := by
  have sound := (inv_of_reachable reachable).sound.1
  refine ⟨sound.fifo, ?_, sound.nread, sound.nwrite⟩
  rw [Data.content, Ring.length_contents]
  exact sound.bound

theorem sound (before : PipeState p) (label : Fin p × Event Input) (after : PipeState p)
    (taken : program.step before label = some after) : system.step before label after := taken

def copying (self : Fin p) (ch : UInt8) (steps : ℕ) : List (Fin p × Event Input) :=
  List.replicate steps (self, .run (.copyin (some ch)))

/-- The writer puts in the bytes 7 and 8 and returns, and the reader, in a call of `piperead`, takes
out one of them. -/
def written (writer reader : Fin p) : List (Fin p × Event Input) :=
  (writer, .dispatch) :: copying writer 0 1 ++ (writer, .run (.pipewrite 2)) ::
    copying writer 7 9 ++ copying writer 8 16 ++
    (reader, .dispatch) :: copying reader 0 1 ++ (reader, .run (.piperead 3)) ::
      copying reader 0 3 ++ [(reader, .run (.copyout true))]

/-- The reader takes out the other one, returns and calls `piperead` again. -/
def awaited (reader : Fin p) : List (Fin p × Event Input) :=
  copying reader 0 1 ++ (reader, .run (.copyout true)) :: copying reader 0 8 ++
    (reader, .run (.piperead 1)) :: copying reader 0 12

theorem pipe_fifo_written : ∃ s : PipeState 2, system.Reachable s ∧
    (s.data.received, s.data.sent) = ([7], [7, 8]) ∧
      s.data.received ++ s.data.content = s.data.sent := by
  obtain ⟨s, run, ends⟩ := System.Run.existsOfExecute (sound (p := 2))
    (show (System.execute _ (start (fun q => q.val + 1) fun _ => 0) (written 0 1)).map
      (fun s => (s.data.received, s.data.sent)) = some ([7], [7, 8]) by decide)
  have reachable := run.reachable (.start ⟨_, _, rfl⟩)
  exact ⟨s, reachable, ends, (pipe_fifo reachable).1⟩

/-- Whenever the lock of the pipe is free, a writer sleeps only at a full pipe and a reader only at
an empty one, unless a process has been killed or the read end is closed. -/
theorem pipe_wakeup {s : PipeState p} (reachable : system.Reachable s)
    (free : s.owner (.named ()) = none) {q : Fin p} (sleeping : s.state q = .SLEEPING) :
    (s.chan q = some .nwrite → s.data.content.length = PIPESIZE ∧ s.data.readopen = true) ∧
      (s.chan q = some .nread → (s.data.content = [] ∧ s.data.writeopen = true) ∨
        s.data.readopen = false ∨ ∃ r, s.data.killed r = true) := by
  have inv := inv_of_reachable reachable
  have sound := inv.sound.1
  have nobody : ∀ chan, ¬ ∃ r, monitor.Wakes s.data chan (s.pc r) := by
    rintro chan ⟨r, wakes⟩
    exact inv.threads.owned.not_held free r (inv.wakes_holds wakes)
  refine ⟨fun on => ?_, fun on => ?_⟩
  · obtain ⟨full, opened⟩ := (inv.sleeping sleeping on).resolve_right (nobody _)
    rw [Data.content, Ring.length_contents]
    exact ⟨(Data.full_iff sound).mp full, opened⟩
  · rcases (inv.sleeping sleeping on).resolve_right (nobody _) with left | ⟨empty, opened⟩
    · exact .inr (inv.sound.2 left)
    · refine .inl ⟨?_, opened⟩
      rw [Data.content, (Data.empty_iff sound).mp empty, Ring.contents_zero]

theorem pipe_wakeup_waiting : ∃ s : PipeState 2, s.state 1 = .SLEEPING ∧
    s.data.received = [7, 8] ∧ (s.data.content = [] ∧ s.data.writeopen = true ∨
      s.data.readopen = false ∨ ∃ r, s.data.killed r = true) := by
  obtain ⟨s, run, ends⟩ := System.Run.existsOfExecute (sound (p := 2))
    (show (System.execute _ (start (fun q => q.val + 1) fun _ => 0)
      (written 0 1 ++ awaited 1)).map
        (fun s => (s.owner (.named ()), s.state 1, s.chan 1, s.data.received)) =
          some (none, .SLEEPING, some .nread, [7, 8]) by decide)
  obtain ⟨free, sleeping, on, received⟩ : s.owner (.named ()) = none ∧ s.state 1 = .SLEEPING ∧
      s.chan 1 = some .nread ∧ s.data.received = [7, 8] := by simpa using ends
  have reachable := run.reachable (.start ⟨_, _, rfl⟩)
  exact ⟨s, sleeping, received, (pipe_wakeup reachable free sleeping).2 on⟩

/-- The exception is real: a writer that is killed after its first byte leaves without a call of
`wakeup`, and the reader goes on sleeping at a pipe that is not empty. -/
theorem reader_left_asleep : ∃ s : PipeState 3, system.Reachable s ∧
    (s.owner (.named ()), s.state 0, s.chan 0, s.data.content) =
      (none, .SLEEPING, some .nread, [7]) := by
  obtain ⟨s, run, ends⟩ := System.Run.existsOfExecute (sound (p := 3))
    (show (System.execute _ (start (fun q => q.val + 1) fun _ => 0)
      ((0, .dispatch) :: copying 0 0 1 ++ (0, .run (.piperead 1)) :: copying 0 0 12 ++
        (1, .dispatch) :: copying 1 0 1 ++ (1, .run (.pipewrite 2)) :: copying 1 7 9 ++
        (2, .dispatch) :: copying 2 0 1 ++ (2, .run (.kkill 2 9)) :: copying 2 0 6 ++
        copying 1 0 7)).map
        (fun s => (s.owner (.named ()), s.state 0, s.chan 0, s.data.content)) =
          some (none, .SLEEPING, some .nread, [7]) by decide)
  exact ⟨s, run.reachable (.start ⟨_, _, rfl⟩), ends⟩

end OsLab.Kernel.Pipe
