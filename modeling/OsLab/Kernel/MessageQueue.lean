import OsLab.Kernel.Copy
import OsLab.Library.Ring

/-!
The message queues of `sysproc.c` called one at a time, and their refinement of
four bounded first-in first-out lists. Locks never block in this setting; the
interleaved calls are in `MessageQueueBoot`.
-/

namespace OsLab.Kernel.MessageQueue

open OsLab.Library

def MAX_MSG_SIZE : ℕ := 64

def MAX_MSGS : ℕ := 8

def NUM_QUEUES : ℕ := 4

abbrev Message := Fin MAX_MSG_SIZE → UInt8

/-- `struct msg_queue` without its lock; `msgs` is used below `MAX_MSGS` only. -/
structure MsgQueue where
  msgs : ℕ → Message
  head : ℕ
  tail : ℕ
  count : ℕ

structure State where
  msgqueues : Fin NUM_QUEUES → MsgQueue
  initialized : Bool

def msgqInit (state : State) : State where
  msgqueues i := { state.msgqueues i with head := 0, tail := 0, count := 0 }
  initialized := true

/-- The test at the top of both system calls. -/
def ensureInit (state : State) : State :=
  if state.initialized then state else msgqInit state

/-- `&msgqueues[qid]`, where the check of `qid` lets the call go on. -/
def queueOf (qid : Int) : Option (Fin NUM_QUEUES) :=
  if h : 0 ≤ qid ∧ qid < NUM_QUEUES then some ⟨qid.toNat, by omega⟩ else none

/-- The slot at `tail` takes the bytes of a copy that may have failed half-way. -/
def MsgQueue.fill (q : MsgQueue) (bytes : Message) : MsgQueue :=
  { q with msgs := Function.update q.msgs q.tail bytes }

def MsgQueue.pushed (q : MsgQueue) : MsgQueue :=
  { q with tail := (q.tail + 1) % MAX_MSGS, count := q.count + 1 }

def MsgQueue.popped (q : MsgQueue) : MsgQueue :=
  { q with head := (q.head + 1) % MAX_MSGS, count := q.count - 1 }

def State.set (state : State) (i : Fin NUM_QUEUES) (q : MsgQueue) : State :=
  { state with msgqueues := Function.update state.msgqueues i q }

def sysMsgqSend (state : State) (qid : Int) (addr : UInt64) (pages : SourcePages) : State × Int :=
  let state := ensureInit state
  match queueOf qid with
  | none => (state, -1)
  | some i =>
      let q := state.msgqueues i
      if q.count = MAX_MSGS then
        (state, -1)
      else
        let copied := copyin pages (q.msgs q.tail) 0 addr.toNat MAX_MSG_SIZE
        if copied.2 then
          (state.set i (q.fill copied.1).pushed, 0)
        else
          (state.set i (q.fill copied.1), -1)

/-- The last component is the caller's memory after the call. -/
def sysMsgqRecv (state : State) (qid : Int) (addr : UInt64) (pages : TargetPages)
    (mem : ℕ → UInt8) : State × Int × (ℕ → UInt8) :=
  let state := ensureInit state
  match queueOf qid with
  | none => (state, -1, mem)
  | some i =>
      let q := state.msgqueues i
      if q.count = 0 then
        (state, -1, mem)
      else
        let copied := copyout pages mem (q.msgs q.head) 0 addr.toNat MAX_MSG_SIZE
        if copied.2 then
          (state.set i q.popped, 0, copied.1)
        else
          (state, -1, copied.1)

/-- A system call with what its process's memory does to the copy. -/
inductive Call
  | send (qid : Int) (addr : UInt64) (pages : SourcePages)
  | recv (qid : Int) (addr : UInt64) (pages : TargetPages) (mem : ℕ → UInt8)

def Call.run (state : State) : Call → State × Int
  | .send qid addr pages => sysMsgqSend state qid addr pages
  | .recv qid addr pages mem =>
      ((sysMsgqRecv state qid addr pages mem).1, (sysMsgqRecv state qid addr pages mem).2.1)

/-- The state after some calls and what they returned, oldest first. -/
def runCalls (state : State) : List Call → State × List Int
  | [] => (state, [])
  | call :: calls =>
      let next := call.run state
      let rest := runCalls next.1 calls
      (rest.1, next.2 :: rest.2)

/-! The purpose of the queues: lists of messages, each at most `MAX_MSGS` long. -/

abbrev Lists := Fin NUM_QUEUES → List Message

/-- A call as its caller sees it: the message its memory holds, if it can be read, or
whether its memory takes a message. -/
inductive Request
  | send (qid : Int) (message : Option Message)
  | recv (qid : Int) (delivered : Prop)

open Classical in
noncomputable def Request.run (lists : Lists) : Request → Lists × Int
  | .send qid message =>
      match queueOf qid, message with
      | some i, some m =>
          if (lists i).length < MAX_MSGS then (Function.update lists i (lists i ++ [m]), 0)
          else (lists, -1)
      | _, _ => (lists, -1)
  | .recv qid delivered =>
      match queueOf qid with
      | some i =>
          if lists i ≠ [] ∧ delivered then (Function.update lists i (lists i).tail, 0)
          else (lists, -1)
      | none => (lists, -1)

noncomputable def runRequests (lists : Lists) : List Request → Lists × List Int
  | [] => (lists, [])
  | request :: requests =>
      let next := request.run lists
      let rest := runRequests next.1 requests
      (rest.1, next.2 :: rest.2)

/-- The 64 bytes at `addr`, when each has a frame behind it. -/
def userMessage (pages : SourcePages) (addr : UInt64) : Option Message :=
  if ∀ k < MAX_MSG_SIZE, (userByte pages ((addr.toNat + k) % 2 ^ 64)).isSome then
    some fun k => (userByte pages ((addr.toNat + k.val) % 2 ^ 64)).getD 0
  else none

def Call.request : Call → Request
  | .send qid addr pages => .send qid (userMessage pages addr)
  | .recv qid addr pages _ => .recv qid (userWritable pages addr.toNat MAX_MSG_SIZE)

/-! The invariant of a queue and the list it holds. -/

def MsgQueue.Valid (q : MsgQueue) : Prop := Ring.Valid MAX_MSGS q.head q.tail q.count

def MsgQueue.contents (q : MsgQueue) : List Message := Ring.contents MAX_MSGS q.msgs q.head q.count

structure State.Ready (state : State) : Prop where
  initialized : state.initialized = true
  valid : ∀ i, (state.msgqueues i).Valid

def lists (state : State) : Lists := fun i => (state.msgqueues i).contents

theorem MsgQueue.length_contents (q : MsgQueue) : q.contents.length = q.count :=
  Ring.length_contents _

theorem MsgQueue.Valid.fill {q : MsgQueue} (valid : q.Valid) (bytes : Message) :
    (q.fill bytes).Valid := valid

theorem MsgQueue.Valid.pushed {q : MsgQueue} (valid : q.Valid) (room : q.count < MAX_MSGS) :
    q.pushed.Valid := Ring.Valid.push valid room

theorem MsgQueue.Valid.popped {q : MsgQueue} (valid : q.Valid) (nonempty : 0 < q.count) :
    q.popped.Valid := Ring.Valid.pop valid nonempty

theorem MsgQueue.contents_fill {q : MsgQueue} (valid : q.Valid) (room : q.count < MAX_MSGS)
    (bytes : Message) : (q.fill bytes).contents = q.contents :=
  Ring.contents_overwrite q.msgs bytes valid room

theorem MsgQueue.contents_pushed {q : MsgQueue} (valid : q.Valid) (room : q.count < MAX_MSGS)
    (bytes : Message) : (q.fill bytes).pushed.contents = q.contents ++ [bytes] :=
  Ring.contents_push q.msgs bytes valid room

theorem MsgQueue.contents_popped {q : MsgQueue} (valid : q.Valid) (nonempty : 0 < q.count) :
    q.contents = q.msgs q.head :: q.popped.contents :=
  Ring.contents_pop q.msgs valid.head_lt nonempty

theorem State.Ready.ensureInit {state : State} (ready : state.Ready) : ensureInit state = state := by
  simp [MessageQueue.ensureInit, ready.initialized]

theorem State.Ready.set {state : State} (ready : state.Ready) (i : Fin NUM_QUEUES) {q : MsgQueue}
    (valid : q.Valid) : (state.set i q).Ready where
  initialized := ready.initialized
  valid j := by
    by_cases same : j = i
    · subst j
      simpa [State.set] using valid
    · simpa [State.set, same] using ready.valid j

theorem lists_set (state : State) (i : Fin NUM_QUEUES) (q : MsgQueue) :
    lists (state.set i q) = Function.update (lists state) i q.contents := by
  funext j
  by_cases same : j = i
  · subst j
    simp [lists, State.set]
  · simp [lists, State.set, same]

theorem lists_set_same {state : State} {i : Fin NUM_QUEUES} {q : MsgQueue}
    (same : q.contents = lists state i) : lists (state.set i q) = lists state := by
  rw [lists_set, same, Function.update_eq_self]

theorem msgqInit_ready (state : State) : (msgqInit state).Ready where
  initialized := rfl
  valid _ := Ring.Valid.empty (by decide)

theorem copyin_message (pages : SourcePages) (dst : Message) (addr : UInt64) :
    (if (copyin pages dst 0 addr.toNat MAX_MSG_SIZE).2 then
      some (copyin pages dst 0 addr.toNat MAX_MSG_SIZE).1 else none) = userMessage pages addr := by
  have bound := addr.toNat_lt
  by_cases whole : ∀ k < MAX_MSG_SIZE, (userByte pages ((addr.toNat + k) % 2 ^ 64)).isSome
  · have succeeded := (copyin_succeeds_iff pages dst 0 addr.toNat MAX_MSG_SIZE bound).mpr whole
    rw [if_pos succeeded, userMessage, if_pos whole]
    congr 1
    funext j
    have byte := copyin_bytes pages dst 0 addr.toNat MAX_MSG_SIZE bound succeeded j
    rw [if_pos ⟨Nat.zero_le _, by omega⟩, Nat.sub_zero] at byte
    rw [← byte, Option.getD_some]
  · have failed := (copyin_succeeds_iff pages dst 0 addr.toNat MAX_MSG_SIZE bound).not.mpr whole
    rw [if_neg failed, userMessage, if_neg whole]

theorem sysMsgqSend_step {state : State} (ready : state.Ready) (qid : Int) (addr : UInt64)
    (pages : SourcePages) :
    (sysMsgqSend state qid addr pages).1.Ready ∧
      (lists (sysMsgqSend state qid addr pages).1, (sysMsgqSend state qid addr pages).2) =
        (Request.send qid (userMessage pages addr)).run (lists state) := by
  simp only [sysMsgqSend, ready.ensureInit, Request.run]
  cases queue : queueOf qid with
  | none => exact ⟨ready, rfl⟩
  | some i =>
      have valid := ready.valid i
      have bounded := valid.count_le
      have message := copyin_message pages ((state.msgqueues i).msgs (state.msgqueues i).tail) addr
      have size : (lists state i).length = (state.msgqueues i).count :=
        MsgQueue.length_contents _
      simp only
      split
      · rename_i full
        refine ⟨ready, ?_⟩
        cases userMessage pages addr <;> simp [size, full]
      · rename_i room
        have space : (state.msgqueues i).count < MAX_MSGS := by omega
        split
        · rename_i succeeded
          rw [if_pos succeeded] at message
          refine ⟨ready.set i ((valid.fill _).pushed space), ?_⟩
          rw [← message, lists_set, MsgQueue.contents_pushed valid space]
          simp only [size, space, ↓reduceIte]
          rfl
        · rename_i failed
          rw [if_neg failed] at message
          refine ⟨ready.set i (valid.fill _), ?_⟩
          rw [← message, lists_set_same (MsgQueue.contents_fill valid space _)]

theorem sysMsgqRecv_step {state : State} (ready : state.Ready) (qid : Int) (addr : UInt64)
    (pages : TargetPages) (mem : ℕ → UInt8) :
    (sysMsgqRecv state qid addr pages mem).1.Ready ∧
      (lists (sysMsgqRecv state qid addr pages mem).1,
          (sysMsgqRecv state qid addr pages mem).2.1) =
        (Request.recv qid (userWritable pages addr.toNat MAX_MSG_SIZE)).run (lists state) := by
  simp only [sysMsgqRecv, ready.ensureInit, Request.run]
  cases queue : queueOf qid with
  | none => exact ⟨ready, rfl⟩
  | some i =>
      have valid := ready.valid i
      have size : (lists state i).length = (state.msgqueues i).count :=
        MsgQueue.length_contents _
      have copied := copyout_succeeds_iff pages mem
        ((state.msgqueues i).msgs (state.msgqueues i).head) 0 addr.toNat MAX_MSG_SIZE
      simp only
      split
      · rename_i empty
        have nothing : lists state i = [] := List.eq_nil_of_length_eq_zero (by omega)
        exact ⟨ready, by simp [nothing]⟩
      · rename_i filled
        have positive : 0 < (state.msgqueues i).count := by omega
        have oldest : lists state i = _ := MsgQueue.contents_popped valid positive
        split
        · rename_i succeeded
          refine ⟨ready.set i (valid.popped positive), ?_⟩
          simp only [lists_set, oldest, copied.mp succeeded, ne_eq, reduceCtorEq, not_false_eq_true,
            and_self, ↓reduceIte, List.tail_cons]
        · rename_i failed
          exact ⟨ready, by simp [copied.not.mp failed]⟩

theorem Call.run_step {state : State} (ready : state.Ready) (call : Call) :
    (call.run state).1.Ready ∧
      (lists (call.run state).1, (call.run state).2) = call.request.run (lists state) := by
  cases call with
  | send qid addr pages => exact sysMsgqSend_step ready qid addr pages
  | recv qid addr pages mem => exact sysMsgqRecv_step ready qid addr pages mem

theorem runCalls_refines {state : State} (ready : state.Ready) (calls : List Call) :
    (runCalls state calls).1.Ready ∧
      (lists (runCalls state calls).1, (runCalls state calls).2) =
        runRequests (lists state) (calls.map Call.request) := by
  induction calls generalizing state with
  | nil => exact ⟨ready, rfl⟩
  | cons call calls ih =>
      obtain ⟨kept, same⟩ := call.run_step ready
      obtain ⟨rest, equal⟩ := ih kept
      refine ⟨rest, ?_⟩
      simp only [runCalls, List.map_cons, runRequests, ← same, ← equal]

/-! What single calls promise to their callers. -/

/-- A send of `message` (`none` when `copyin` fails) that returns `ret`. -/
structure SendResult (before after : Lists) (qid : Int) (message : Option Message) (ret : Int) :
    Prop where
  accepted : ret = 0 ↔ ∃ i : Fin NUM_QUEUES, (i : Int) = qid ∧ (before i).length < MAX_MSGS ∧
    message.isSome
  appended : ret = 0 → ∃ i m, ((i : Fin NUM_QUEUES) : Int) = qid ∧ message = some m ∧
    after = Function.update before i (before i ++ [m])
  refused : ret ≠ 0 → ret = -1 ∧ after = before

/-- A receive into `addr` that returns `ret` and leaves the caller's memory as `filled`. -/
structure RecvResult (before after : Lists) (qid : Int) (addr : ℕ) (delivered : Prop) (ret : Int)
    (filled : ℕ → UInt8) : Prop where
  accepted : ret = 0 ↔ ∃ i : Fin NUM_QUEUES, (i : Int) = qid ∧ before i ≠ [] ∧ delivered
  removed : ret = 0 → ∃ i m rest, ((i : Fin NUM_QUEUES) : Int) = qid ∧ before i = m :: rest ∧
    after = Function.update before i rest ∧ ∀ k : Fin MAX_MSG_SIZE, filled (addr + k) = m k
  refused : ret ≠ 0 → ret = -1 ∧ after = before

theorem queueOf_eq_some {qid : Int} {i : Fin NUM_QUEUES} : queueOf qid = some i ↔ (i : Int) = qid := by
  have bound := i.isLt
  unfold queueOf
  split
  · rename_i inside
    simp only [Option.some.injEq, Fin.ext_iff]
    omega
  · rename_i outside
    simp only [reduceCtorEq, false_iff]
    omega

theorem request_send_result (before : Lists) (qid : Int) (message : Option Message) :
    SendResult before ((Request.send qid message).run before).1 qid message
      ((Request.send qid message).run before).2 := by
  have valid : ∀ i : Fin NUM_QUEUES, (i : Int) = qid ↔ queueOf qid = some i :=
    fun _ => queueOf_eq_some.symm
  simp only [Request.run]
  cases queue : queueOf qid with
  | none => constructor <;> simp [valid, queue]
  | some i =>
      cases message with
      | none => constructor <;> simp
      | some m =>
          by_cases room : (before i).length < MAX_MSGS
          · constructor <;> simp [valid, queue, room]
          · constructor <;> simp [valid, queue, room]

theorem sysMsgqSend_result {state : State} (ready : state.Ready) (qid : Int) (addr : UInt64)
    (pages : SourcePages) :
    SendResult (lists state) (lists (sysMsgqSend state qid addr pages).1) qid
      (userMessage pages addr) (sysMsgqSend state qid addr pages).2 := by
  have step := (sysMsgqSend_step ready qid addr pages).2
  have result := request_send_result (lists state) qid (userMessage pages addr)
  rwa [← step] at result

theorem sysMsgqRecv_delivers {state : State} (ready : state.Ready) {qid : Int} {addr : UInt64}
    {pages : TargetPages} {mem : ℕ → UInt8} {i : Fin NUM_QUEUES} (queue : queueOf qid = some i)
    {m : Message} {rest : List Message} (oldest : lists state i = m :: rest)
    (writable : userWritable pages addr.toNat MAX_MSG_SIZE) (k : Fin MAX_MSG_SIZE) :
    (sysMsgqRecv state qid addr pages mem).2.2 (addr.toNat + k) = m k := by
  have size : (lists state i).length = (state.msgqueues i).count := MsgQueue.length_contents _
  have positive : 0 < (state.msgqueues i).count := by simp [← size, oldest]
  have first : lists state i = _ := MsgQueue.contents_popped (ready.valid i) positive
  rw [oldest, List.cons.injEq] at first
  have copied := (copyout_succeeds_iff pages mem
    ((state.msgqueues i).msgs (state.msgqueues i).head) 0 addr.toNat MAX_MSG_SIZE).mpr writable
  have byte := copyout_bytes pages mem ((state.msgqueues i).msgs (state.msgqueues i).head) 0
    addr.toNat MAX_MSG_SIZE (by omega) copied (addr.toNat + k)
  rw [dif_pos ⟨by omega, by omega⟩] at byte
  simp only [sysMsgqRecv, ready.ensureInit, queue, show (state.msgqueues i).count ≠ 0 by omega,
    ↓reduceIte, copied]
  rw [byte, first.1]
  congr 1
  exact Fin.ext (by simp)

theorem sysMsgqRecv_result {state : State} (ready : state.Ready) (qid : Int) (addr : UInt64)
    (pages : TargetPages) (mem : ℕ → UInt8) :
    RecvResult (lists state) (lists (sysMsgqRecv state qid addr pages mem).1) qid addr.toNat
      (userWritable pages addr.toNat MAX_MSG_SIZE) (sysMsgqRecv state qid addr pages mem).2.1
      (sysMsgqRecv state qid addr pages mem).2.2 := by
  have step := (sysMsgqRecv_step ready qid addr pages mem).2
  have valid : ∀ i : Fin NUM_QUEUES, (i : Int) = qid ↔ queueOf qid = some i :=
    fun _ => queueOf_eq_some.symm
  rw [Prod.ext_iff] at step
  simp only [Request.run] at step
  cases queue : queueOf qid with
  | none =>
      simp only [queue] at step
      constructor <;> simp [step.1, step.2, valid, queue]
  | some i =>
      simp only [queue] at step
      by_cases served : lists state i ≠ [] ∧ userWritable pages addr.toNat MAX_MSG_SIZE
      · simp only [served, and_self, ↓reduceIte, ne_eq, not_false_eq_true] at step
        refine ⟨?_, ?_, ?_⟩
        · simp [step.2, valid, queue, served]
        · intro _
          obtain ⟨m, rest, oldest⟩ := List.exists_cons_of_ne_nil served.1
          refine ⟨i, m, rest, (valid i).mpr queue, oldest, ?_,
            sysMsgqRecv_delivers ready queue oldest served.2⟩
          rw [step.1, oldest, List.tail_cons]
        · simp [step.2]
      · simp only [served, ↓reduceIte] at step
        refine ⟨?_, ?_, ?_⟩
        · simp only [step.2, valid, queue, Option.some.injEq, exists_eq_left']
          simpa using served
        · simp [step.2]
        · simp [step.1, step.2]

/-- After `msgq_init`, any calls on any ids in any order act on the four ring buffers as on
four bounded first-in first-out lists. -/
theorem msgq_refinement (boot : State) (calls : List Call) :
    let run := runCalls (msgqInit boot) calls
    (lists run.1, run.2) = runRequests (fun _ => []) (calls.map Call.request) ∧
      (∀ i, (lists run.1 i).length ≤ MAX_MSGS) ∧
      (∀ qid addr pages, SendResult (lists run.1) (lists (sysMsgqSend run.1 qid addr pages).1) qid
        (userMessage pages addr) (sysMsgqSend run.1 qid addr pages).2) ∧
      ∀ qid addr pages mem, RecvResult (lists run.1)
        (lists (sysMsgqRecv run.1 qid addr pages mem).1) qid addr.toNat
        (userWritable pages addr.toNat MAX_MSG_SIZE) (sysMsgqRecv run.1 qid addr pages mem).2.1
        (sysMsgqRecv run.1 qid addr pages mem).2.2 := by
  obtain ⟨ready, same⟩ := runCalls_refines (msgqInit_ready boot) calls
  refine ⟨same, ?_, ?_, ?_⟩
  · intro i
    rw [lists, MsgQueue.length_contents]
    exact (ready.valid i).count_le
  · exact fun qid addr pages => sysMsgqSend_result ready qid addr pages
  · exact fun qid addr pages mem => sysMsgqRecv_result ready qid addr pages mem

end OsLab.Kernel.MessageQueue
