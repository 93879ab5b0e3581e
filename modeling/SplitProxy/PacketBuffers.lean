import SplitProxy.Custody
import SplitProxy.WireFormat
import Mathlib.Data.List.Perm.Basic

/-!
# The buffers of the send queues

`sendPacket` and `brokerWriter` of all broker connections of a worker, with the
`packetBufferPool` they share. A buffer is a number and the memory shows what is
in it; a slice begins where its buffer does. `WriteMessage` only reads its data.
-/
namespace SplitProxy.PacketBuffers

open Runs Custody
open MessageSize (maxPacketData)
open WireFormat (make copyInto)

abbrev BufferId := Nat
abbrev CallId := Nat
abbrev LinkId := Nat

/-- `buf[:len]` -/
structure Slice where
  buffer : BufferId
  len : Nat
  deriving DecidableEq, Repr

/-- `brokerWriterMessage`; `sendPacket` makes binary messages only. -/
structure Message where
  data : Slice
  pooled : Bool
  deriving DecidableEq, Repr

/-- How far `sendPacket` has got with its buffer; at `filled` it stands at the
select, at `refused` before the `Put` of the done case. -/
inductive Stage where
  | taken
  | idCopied
  | cmdSet
  | filled
  | refused
  deriving DecidableEq, Repr

inductive CallPc where
  | notCalled
  | called
  | holding (stage : Stage) (buf : Slice)
  /-- slice bounds out of range -/
  | crashed
  | returned (ok : Bool)
  deriving DecidableEq, Repr

/-- A call of `sendPacket`. -/
structure Call where
  link : LinkId
  id : Bytes
  cmd : UInt8
  data : Bytes
  pc : CallPc

def Call.pooled (c : Call) : Bool := c.data.length ≤ maxPacketData

inductive WriterPc where
  | select
  | deadline (msg : Message)
  | writing (msg : Message)
  | written (msg : Message) (ok : Bool)
  | failed
  | returned
  deriving DecidableEq, Repr

/-- One broker connection: `done`, `send` and `brokerWriter`. -/
structure Link where
  done : Bool
  send : List Message
  writer : WriterPc

structure State where
  heap : BufferId → Bytes
  /-- the number of the next buffer that is made -/
  next : BufferId
  pool : List Slice
  calls : CallId → Call
  links : LinkId → Link

def initial : State where
  heap := fun _ => []
  next := 0
  pool := []
  calls := fun _ => ⟨0, [], 0, [], .notCalled⟩
  links := fun _ => ⟨false, [], .select⟩

namespace State

def setCall (s : State) (i : CallId) (c : Call) : State :=
  { s with calls := Function.update s.calls i c }

def goto (s : State) (i : CallId) (pc : CallPc) : State := s.setCall i { s.calls i with pc := pc }

def setPool (s : State) (pool : List Slice) : State := { s with pool := pool }

def setSend (s : State) (n : LinkId) (send : List Message) : State :=
  { s with links := Function.update s.links n { s.links n with send := send } }

def setWriter (s : State) (n : LinkId) (pc : WriterPc) : State :=
  { s with links := Function.update s.links n { s.links n with writer := pc } }

/-- `closeDone` -/
def closeDone (s : State) (n : LinkId) : State :=
  { s with links := Function.update s.links n { s.links n with done := true } }

/-- `make([]byte, n)` -/
def alloc (s : State) (n : Nat) : State :=
  { s with heap := Function.update s.heap s.next (make n), next := s.next + 1 }

def store (s : State) (b : BufferId) (content : Bytes) : State :=
  { s with heap := Function.update s.heap b content }

/-- `buf[:cap(buf)]` -/
def whole (s : State) (buf : Slice) : Slice := ⟨buf.buffer, (s.heap buf.buffer).length⟩

/-- `b[:37+len(data)]` of what the pool gave. -/
def reslice (s : State) (i : CallId) (b : Slice) : CallPc :=
  let len := 37 + (s.calls i).data.length
  if len ≤ (s.heap b.buffer).length then .holding .taken ⟨b.buffer, len⟩ else .crashed

end State

inductive Event where
  -- sendPacket
  | call (i : CallId) (n : LinkId) (id : Bytes) (cmd : UInt8) (data : Bytes)
  | get (i : CallId) (k : Nat)
  | getNew (i : CallId)
  | make (i : CallId)
  | copyID (i : CallId)
  | setCmd (i : CallId)
  | copyData (i : CallId)
  | enqueue (i : CallId)
  | refuse (i : CallId)
  | putBack (i : CallId)
  -- the pool drops a buffer
  | forget (k : Nat)
  -- brokerWriter
  | take (n : LinkId)
  | deadline (n : LinkId) (ok : Bool)
  | write (n : LinkId) (ok : Bool)
  | put (n : LinkId)
  | ping (n : LinkId) (ok : Bool)
  | fail (n : LinkId)
  | stop (n : LinkId)
  -- anything else that closes `done`
  | close (n : LinkId)
  deriving DecidableEq

def step (s : State) : Event → Option State
  | .call i n id cmd data =>
    if (s.calls i).pc = .notCalled then
      let pc := if id.length ≠ 36 then CallPc.returned false else .called
      some (s.setCall i ⟨n, id, cmd, data, pc⟩)
    else none
  | .get i k =>
    if (s.calls i).pc = .called ∧ (s.calls i).pooled = true then
      (s.pool[k]?).map fun b => (s.setPool (s.pool.eraseIdx k)).goto i (s.reslice i b)
    else none
  | .getNew i =>
    if (s.calls i).pc = .called ∧ (s.calls i).pooled = true then
      let t := s.alloc (37 + maxPacketData)
      some (t.goto i (t.reslice i ⟨s.next, 37 + maxPacketData⟩))
    else none
  | .make i =>
    let len := 37 + (s.calls i).data.length
    if (s.calls i).pc = .called ∧ (s.calls i).pooled = false then
      some ((s.alloc len).goto i (.holding .taken ⟨s.next, len⟩))
    else none
  | .copyID i =>
    match (s.calls i).pc with
    | .holding .taken b =>
      let content := copyInto (s.heap b.buffer) 0 36 (s.calls i).id
      some ((s.store b.buffer content).goto i (.holding .idCopied b))
    | _ => none
  | .setCmd i =>
    match (s.calls i).pc with
    | .holding .idCopied b =>
      let content := (s.heap b.buffer).set 36 (s.calls i).cmd
      some ((s.store b.buffer content).goto i (.holding .cmdSet b))
    | _ => none
  | .copyData i =>
    match (s.calls i).pc with
    | .holding .cmdSet b =>
      let content := copyInto (s.heap b.buffer) 37 b.len (s.calls i).data
      some ((s.store b.buffer content).goto i (.holding .filled b))
    | _ => none
  | .enqueue i =>
    let c := s.calls i
    let l := s.links c.link
    match c.pc with
    | .holding .filled b =>
      if l.send.length < brokerWriteQueue then
        some ((s.goto i (.returned true)).setSend c.link (l.send ++ [⟨b, c.pooled⟩]))
      else none
    | _ => none
  | .refuse i =>
    let c := s.calls i
    match c.pc with
    | .holding .filled b =>
      if (s.links c.link).done = true then
        some (s.goto i (if c.pooled then .holding .refused b else .returned false))
      else none
    | _ => none
  | .putBack i =>
    match (s.calls i).pc with
    | .holding .refused b => some ((s.goto i (.returned false)).setPool (s.whole b :: s.pool))
    | _ => none
  | .forget k => (s.pool[k]?).map fun _ => s.setPool (s.pool.eraseIdx k)
  | .take n =>
    match (s.links n).writer, (s.links n).send with
    | .select, msg :: rest => some ((s.setSend n rest).setWriter n (.deadline msg))
    | _, _ => none
  | .deadline n ok =>
    match (s.links n).writer with
    | .deadline msg => some (s.setWriter n (if ok then .writing msg else .failed))
    | _ => none
  | .write n ok =>
    match (s.links n).writer with
    | .writing msg => some (s.setWriter n (.written msg ok))
    | _ => none
  | .put n =>
    match (s.links n).writer with
    | .written msg ok =>
      let t := s.setWriter n (if ok then .select else .failed)
      some (if msg.pooled then t.setPool (s.whole msg.data :: s.pool) else t)
    | _ => none
  | .ping n ok =>
    if (s.links n).writer = .select then
      some (s.setWriter n (if ok then .select else .failed))
    else none
  | .fail n =>
    if (s.links n).writer = .failed then some ((s.closeDone n).setWriter n .returned) else none
  | .stop n =>
    if (s.links n).writer = .select ∧ (s.links n).done = true then
      some (s.setWriter n .returned)
    else none
  | .close n => some (s.closeDone n)

/-! ## Where the buffers are -/

inductive Place where
  | pool
  | filling (i : CallId)
  | queued (n : LinkId)
  | writing (n : LinkId)
  deriving DecidableEq, Repr

def Message.buffer (m : Message) : BufferId := m.data.buffer

def CallPc.buffers : CallPc → List BufferId
  | .holding _ b => [b.buffer]
  | _ => []

/-- The message that has been taken and is still needed. -/
def WriterPc.messages : WriterPc → List Message
  | .deadline msg | .writing msg | .written msg _ => [msg]
  | _ => []

def held (s : State) : Place → List BufferId
  | .pool => s.pool.map Slice.buffer
  | .filling i => (s.calls i).pc.buffers
  | .queued n => (s.links n).send.map Message.buffer
  | .writing n => (s.links n).writer.messages.map Message.buffer

/-- No buffer has two owners, and all in the pool have their full length. -/
structure OneOwner (s : State) : Prop where
  exclusive : Exclusive (held s)
  sized : ∀ b ∈ s.pool,
    b.len = 37 + maxPacketData ∧ (s.heap b.buffer).length = 37 + maxPacketData
  inRange : ∀ b ∈ s.pool, ∀ data : Bytes, data.length ≤ maxPacketData →
    37 + data.length ≤ (s.heap b.buffer).length
  crashed : ∀ i, (s.calls i).pc ≠ .crashed

/-- The step changes nothing in a buffer that is in a queue or being written. -/
def QueuesKept (s : State) (e : Event) : Prop :=
  ∀ t, step s e = some t → ∀ n, ∀ b ∈ held s (.queued n) ++ held s (.writing n),
    t.heap b = s.heap b

variable {s t : State} {e : Event} {i j : CallId} {n : LinkId} {b : BufferId} {buf : Slice}

@[simp] theorem held_setCall (s : State) (i : CallId) (c : Call) :
    held (s.setCall i c) = Function.update (held s) (.filling i) c.pc.buffers := by
  funext p
  cases p with
  | filling j =>
    by_cases h : j = i
    · subst h
      simp [held, State.setCall]
    · simp [held, State.setCall, h]
  | _ => rfl

@[simp] theorem held_goto (s : State) (i : CallId) (pc : CallPc) :
    held (s.goto i pc) = Function.update (held s) (.filling i) pc.buffers := held_setCall s i _

@[simp] theorem held_setPool (s : State) (pool : List Slice) :
    held (s.setPool pool) = Function.update (held s) .pool (pool.map Slice.buffer) := by
  funext p
  cases p <;> rfl

@[simp] theorem held_setSend (s : State) (n : LinkId) (send : List Message) :
    held (s.setSend n send) = Function.update (held s) (.queued n) (send.map Message.buffer) := by
  funext p
  cases p with
  | queued m | writing m =>
    by_cases h : m = n
    · subst h
      simp [held, State.setSend]
    · simp [held, State.setSend, h]
  | _ => rfl

@[simp] theorem held_setWriter (s : State) (n : LinkId) (pc : WriterPc) :
    held (s.setWriter n pc) =
      Function.update (held s) (.writing n) (pc.messages.map Message.buffer) := by
  funext p
  cases p with
  | queued m | writing m =>
    by_cases h : m = n
    · subst h
      simp [held, State.setWriter]
    · simp [held, State.setWriter, h]
  | _ => rfl

@[simp] theorem held_closeDone (s : State) (n : LinkId) : held (s.closeDone n) = held s := by
  funext p
  cases p with
  | queued m | writing m =>
    by_cases h : m = n
    · subst h
      simp [held, State.closeDone]
    · simp [held, State.closeDone, h]
  | _ => rfl

@[simp] theorem held_alloc (s : State) (n : Nat) : held (s.alloc n) = held s := rfl

@[simp] theorem held_store (s : State) (b : BufferId) (content : Bytes) :
    held (s.store b content) = held s := rfl

theorem pool_perm {k : Nat} {x : Slice} (h : s.pool[k]? = some x) :
    (held s .pool).Perm (x.buffer :: (s.pool.eraseIdx k).map Slice.buffer) := by
  obtain ⟨hk, rfl⟩ := List.getElem?_eq_some_iff.mp h
  exact ((List.getElem_cons_eraseIdx_perm hk).map Slice.buffer).symm

theorem pool_subperm (k : Nat) : ((s.pool.eraseIdx k).map Slice.buffer).Subperm (held s .pool) :=
  ((List.eraseIdx_sublist _ _).map Slice.buffer).subperm

theorem reslice_buffers (s : State) (i : CallId) (x : Slice) :
    (s.reslice i x).buffers = [x.buffer] ∨ (s.reslice i x).buffers = [] := by
  simp only [State.reslice]
  split
  · exact Or.inl rfl
  · exact Or.inr rfl

/-- What `make` gives is nowhere yet. -/
theorem owned_made (h : Owned (· < s.next) (held s)) (hi : (s.calls i).pc = .called) :
    Owned (· < s.next + 1) (Function.update (held s) (.filling i) [s.next]) := by
  refine h.new (Nat.lt_irrefl _) ?_ ?_
  · rw [held, hi]
    exact List.Perm.refl _
  · rintro x (hx | rfl)
    · exact Nat.lt_succ_of_lt hx
    · exact Nat.lt_succ_self _

theorem owned_mono (h : Owned (· < s.next) (held s)) : Owned (· < s.next + 1) (held s) :=
  ⟨h.exclusive, fun p b hb => Nat.lt_succ_of_lt (h.known p b hb)⟩

/-! ## What a step does -/

/-- The call of `sendPacket` that takes the step. -/
def actor : Event → Option CallId
  | .call i _ _ _ _ | .get i _ | .getNew i | .make i | .copyID i | .setCmd i | .copyData i
  | .enqueue i | .refuse i | .putBack i => some i
  | _ => none

/-- The next part of its frame that a call stores, over the old content. -/
inductive Stores (c : Call) (buf : Slice) (old : Bytes) : Stage → Stage → Bytes → Prop where
  | id : Stores c buf old .taken .idCopied (copyInto old 0 36 c.id)
  | cmd : Stores c buf old .idCopied .cmdSet (old.set 36 c.cmd)
  | data : Stores c buf old .cmdSet .filled (copyInto old 37 buf.len c.data)

/-- All that a step can do; the steps of a writer that keep its message or let go
of it are one case. -/
inductive Effect (s : State) : Event → State → Prop where
  | call {i : CallId} {n : LinkId} {id : Bytes} {cmd : UInt8} {data : Bytes}
      (hpc : (s.calls i).pc = .notCalled) :
      Effect s (.call i n id cmd data)
        (s.setCall i ⟨n, id, cmd, data, if id.length ≠ 36 then .returned false else .called⟩)
  | get {i : CallId} {k : Nat} {x : Slice} (hpc : (s.calls i).pc = .called)
      (hp : (s.calls i).pooled = true) (hx : s.pool[k]? = some x) :
      Effect s (.get i k) ((s.setPool (s.pool.eraseIdx k)).goto i (s.reslice i x))
  | getNew {i : CallId} (hpc : (s.calls i).pc = .called) (hp : (s.calls i).pooled = true) :
      Effect s (.getNew i) ((s.alloc (37 + maxPacketData)).goto i
        ((s.alloc (37 + maxPacketData)).reslice i ⟨s.next, 37 + maxPacketData⟩))
  | make {i : CallId} (hpc : (s.calls i).pc = .called) (hp : (s.calls i).pooled = false) :
      Effect s (.make i) ((s.alloc (37 + (s.calls i).data.length)).goto i
        (.holding .taken ⟨s.next, 37 + (s.calls i).data.length⟩))
  | store {e : Event} {i : CallId} {stage stage' : Stage} {buf : Slice} {content : Bytes}
      (he : actor e = some i) (hpc : (s.calls i).pc = .holding stage buf)
      (hc : Stores (s.calls i) buf (s.heap buf.buffer) stage stage' content) :
      Effect s e ((s.store buf.buffer content).goto i (.holding stage' buf))
  | enqueue {i : CallId} {buf : Slice} (hpc : (s.calls i).pc = .holding .filled buf)
      (hroom : (s.links (s.calls i).link).send.length < brokerWriteQueue) :
      Effect s (.enqueue i) ((s.goto i (.returned true)).setSend (s.calls i).link
        ((s.links (s.calls i).link).send ++ [⟨buf, (s.calls i).pooled⟩]))
  | refuse {i : CallId} {buf : Slice} (hpc : (s.calls i).pc = .holding .filled buf)
      (hdone : (s.links (s.calls i).link).done = true) :
      Effect s (.refuse i)
        (s.goto i (if (s.calls i).pooled then .holding .refused buf else .returned false))
  | putBack {i : CallId} {buf : Slice} (hpc : (s.calls i).pc = .holding .refused buf) :
      Effect s (.putBack i) ((s.goto i (.returned false)).setPool (s.whole buf :: s.pool))
  | forget {k : Nat} {x : Slice} (hx : s.pool[k]? = some x) :
      Effect s (.forget k) (s.setPool (s.pool.eraseIdx k))
  | take {n : LinkId} {msg : Message} {rest : List Message} (hpc : (s.links n).writer = .select)
      (hsend : (s.links n).send = msg :: rest) :
      Effect s (.take n) ((s.setSend n rest).setWriter n (.deadline msg))
  | writer {e : Event} {n : LinkId} {pc : WriterPc} (he : actor e = none)
      (hpc : pc.messages = (s.links n).writer.messages ∨ pc.messages = []) :
      Effect s e (s.setWriter n pc)
  | put {n : LinkId} {msg : Message} {pc : WriterPc} (hmsg : (s.links n).writer.messages = [msg])
      (hp : msg.pooled = true) (hpc : pc.messages = []) :
      Effect s (.put n) ((s.setWriter n pc).setPool (s.whole msg.data :: s.pool))
  | fail {n : LinkId} (hpc : (s.links n).writer = .failed) :
      Effect s (.fail n) ((s.closeDone n).setWriter n .returned)
  | close {n : LinkId} : Effect s (.close n) (s.closeDone n)

theorem step_effect (hs : step s e = some t) : Effect s e t := by
  cases e with
  | call i n id cmd data =>
    simp only [step] at hs
    split at hs
    · rename_i hpc
      cases hs
      exact .call hpc
    · cases hs
  | get i k =>
    simp only [step] at hs
    split at hs
    · rename_i hpc
      obtain ⟨x, hx, rfl⟩ := Option.map_eq_some_iff.mp hs
      exact .get hpc.1 hpc.2 hx
    · cases hs
  | getNew i =>
    simp only [step] at hs
    split at hs
    · rename_i hpc
      cases hs
      exact .getNew hpc.1 hpc.2
    · cases hs
  | make i =>
    simp only [step] at hs
    split at hs
    · rename_i hpc
      cases hs
      exact .make hpc.1 hpc.2
    · cases hs
  | copyID i =>
    simp only [step] at hs
    split at hs
    · rename_i buf hpc
      cases hs
      exact .store rfl hpc .id
    · cases hs
  | setCmd i =>
    simp only [step] at hs
    split at hs
    · rename_i buf hpc
      cases hs
      exact .store rfl hpc .cmd
    · cases hs
  | copyData i =>
    simp only [step] at hs
    split at hs
    · rename_i buf hpc
      cases hs
      exact .store rfl hpc .data
    · cases hs
  | enqueue i =>
    simp only [step] at hs
    split at hs
    · rename_i buf hpc
      split at hs
      · rename_i hroom
        cases hs
        exact .enqueue hpc hroom
      · cases hs
    · cases hs
  | refuse i =>
    simp only [step] at hs
    split at hs
    · rename_i buf hpc
      split at hs
      · rename_i hdone
        cases hs
        exact .refuse hpc hdone
      · cases hs
    · cases hs
  | putBack i =>
    simp only [step] at hs
    split at hs
    · rename_i buf hpc
      cases hs
      exact .putBack hpc
    · cases hs
  | forget k =>
    obtain ⟨x, hx, rfl⟩ := Option.map_eq_some_iff.mp hs
    exact .forget hx
  | take n =>
    simp only [step] at hs
    split at hs
    · rename_i msg rest hpc hsend
      cases hs
      exact .take hpc hsend
    · cases hs
  | deadline n ok =>
    simp only [step] at hs
    split at hs
    · rename_i msg hpc
      cases hs
      refine .writer rfl ?_
      cases ok with
      | true => exact Or.inl (by rw [hpc]; rfl)
      | false => exact Or.inr rfl
    · cases hs
  | write n ok =>
    simp only [step] at hs
    split at hs
    · rename_i msg hpc
      cases hs
      exact .writer rfl (Or.inl (by rw [hpc]; rfl))
    · cases hs
  | put n =>
    simp only [step] at hs
    split at hs
    · rename_i msg ok hpc
      cases hs
      have hnone : (if ok then WriterPc.select else .failed).messages = [] := by cases ok <;> rfl
      by_cases hp : msg.pooled = true
      · rw [if_pos hp]
        exact .put (by rw [hpc]; rfl) hp hnone
      · rw [if_neg hp]
        exact .writer rfl (Or.inr hnone)
    · cases hs
  | ping n ok =>
    simp only [step] at hs
    split at hs
    · cases hs
      refine .writer rfl (Or.inr ?_)
      cases ok <;> rfl
    · cases hs
  | fail n =>
    simp only [step] at hs
    split at hs
    · rename_i hpc
      cases hs
      exact .fail hpc
    · cases hs
  | stop n =>
    simp only [step] at hs
    split at hs
    · cases hs
      exact .writer rfl (Or.inr rfl)
    · cases hs
  | close n =>
    cases hs
    exact .close

/-! ## Who owns a buffer -/

theorem filling_perm {stage : Stage} (h : (s.calls i).pc = .holding stage buf) :
    (held s (.filling i)).Perm [buf.buffer] := by
  rw [held, h]
  exact List.Perm.refl _

theorem writing_perm {msg : Message} (h : (s.links n).writer.messages = [msg]) :
    (held s (.writing n)).Perm [msg.buffer] := by
  rw [held, h]
  exact List.Perm.refl _

/-- A writer that keeps its message or lets go of it. -/
theorem owned_writer {known : BufferId → Prop} (h : Owned known (held s)) {pc : WriterPc}
    (hpc : pc.messages = (s.links n).writer.messages ∨ pc.messages = []) :
    Owned known (held (s.setWriter n pc)) := by
  rw [held_setWriter]
  refine h.fewer ?_
  rcases hpc with hpc | hpc
  · rw [hpc]
    exact List.Subperm.refl _
  · rw [hpc]
    exact List.nil_subperm

theorem owned_step (h : Owned (· < s.next) (held s)) (hs : step s e = some t) :
    Owned (· < t.next) (held t) := by
  cases step_effect hs with
  | @call i n id cmd data hpc =>
    rw [held_setCall]
    refine h.fewer ?_
    split <;> exact List.nil_subperm
  | @get i k x hpc hp hx =>
    rw [held_goto, held_setPool]
    rcases reslice_buffers s i x with hb | hb
    · rw [hb]
      refine Owned.move (p := .pool) (q := .filling i) h nofun (pool_perm hx) ?_
      rw [held, hpc]
      exact List.Perm.refl _
    · rw [hb]
      exact (h.fewer (p := .pool) (pool_subperm k)).fewer List.nil_subperm
  | @getNew i hpc hp =>
    rw [held_goto, held_alloc]
    rcases reslice_buffers (s.alloc (37 + maxPacketData)) i ⟨s.next, 37 + maxPacketData⟩ with hb | hb
    · rw [hb]
      exact owned_made h hpc
    · rw [hb]
      exact (owned_mono h).fewer List.nil_subperm
  | make hpc hp =>
    rw [held_goto, held_alloc]
    exact owned_made h hpc
  | store he hpc hc =>
    rw [held_goto, held_store]
    exact h.fewer (filling_perm hpc).symm.subperm
  | @enqueue i buf hpc hroom =>
    rw [held_setSend, held_goto]
    refine Owned.move (p := .filling i) (q := .queued _) h nofun (filling_perm hpc) ?_
    rw [List.map_append]
    exact List.perm_append_singleton _ _
  | @refuse i buf hpc hdone =>
    rw [held_goto]
    refine h.fewer ?_
    rw [held, hpc]
    split
    · exact List.Subperm.refl _
    · exact List.nil_subperm
  | @putBack i buf hpc =>
    rw [held_setPool, held_goto]
    exact Owned.move (p := .filling i) (q := .pool) h nofun (filling_perm hpc) (List.Perm.refl _)
  | @forget k x hx =>
    rw [held_setPool]
    exact h.fewer (pool_subperm k)
  | @take n msg rest hpc hsend =>
    rw [held_setWriter, held_setSend]
    refine Owned.move (p := .queued n) (q := .writing n) h nofun (b := msg.buffer) ?_ ?_
    · rw [held, hsend]
      exact List.Perm.refl _
    · rw [held, hpc]
      exact List.Perm.refl _
  | writer he hpc => exact owned_writer h hpc
  | @put n msg pc hmsg hp hpc =>
    rw [held_setPool, held_setWriter, hpc]
    exact Owned.move (p := .writing n) (q := .pool) h nofun (writing_perm hmsg) (List.Perm.refl _)
  | @fail n hpc =>
    refine owned_writer ?_ (Or.inr rfl)
    rw [held_closeDone]
    exact h
  | close =>
    rw [held_closeDone]
    exact h

/-! ## What a step leaves alone -/

/-- Only the buffer of the call that acts is written to, or a new one made. -/
theorem heap_step (hs : step s e = some t) (b : BufferId) :
    t.heap b = s.heap b ∨ b = s.next ∨ ∃ i, actor e = some i ∧ b ∈ held s (.filling i) := by
  cases step_effect hs with
  | @store e i stage stage' buf content he hpc hc =>
    by_cases hb : b = buf.buffer
    · subst hb
      refine Or.inr (Or.inr ⟨i, he, ?_⟩)
      rw [held, hpc]
      exact List.mem_singleton_self _
    · exact Or.inl (Function.update_of_ne hb _ _)
  | getNew hpc hp | make hpc hp =>
    by_cases hb : b = s.next
    · exact Or.inr (Or.inl hb)
    · exact Or.inl (Function.update_of_ne hb _ _)
  | _ => exact Or.inl rfl

/-- A buffer that somebody else holds keeps its content. -/
theorem heap_kept (h : Owned (· < s.next) (held s)) (hs : step s e = some t) {p : Place}
    (hb : b ∈ held s p) (hp : ∀ i, actor e = some i → p ≠ .filling i) : t.heap b = s.heap b := by
  rcases heap_step hs b with hheap | rfl | ⟨i, hi, hfill⟩
  · exact hheap
  · exact absurd (h.known p s.next hb) (Nat.lt_irrefl _)
  · exact absurd (h.exclusive.apart _ _ b hb hfill) (hp i hi)

theorem calls_kept (hs : step s e = some t) (hj : actor e ≠ some j) : t.calls j = s.calls j := by
  have hother : ∀ {i : CallId}, actor e = some i → j ≠ i := fun he hji => hj (hji ▸ he)
  cases step_effect hs with
  | call hpc | get hpc hp hx | getNew hpc hp | make hpc hp | enqueue hpc hroom | refuse hpc hdone
  | putBack hpc => exact Function.update_of_ne (hother rfl) _ _
  | store he hpc hc => exact Function.update_of_ne (hother he) _ _
  | _ => rfl

/-- A call that has returned is over. -/
theorem returned_kept {ok : Bool} (hs : step s e = some t) (hj : (s.calls j).pc = .returned ok) :
    t.calls j = s.calls j := by
  refine calls_kept hs fun he => ?_
  cases step_effect hs with
  | call hpc | get hpc hp hx | getNew hpc hp | make hpc hp | enqueue hpc hroom | refuse hpc hdone
  | putBack hpc =>
    cases he
    rw [hj] at hpc
    cases hpc
  | store he' hpc hc =>
    cases he'.symm.trans he
    rw [hj] at hpc
    cases hpc
  | writer he' hpc => cases he'.symm.trans he
  | _ => cases he

/-! ## What is in the buffers -/

def Call.frame (c : Call) : Bytes := c.id ++ c.cmd :: c.data

/-- The part of the frame that is in the buffer. -/
def Call.filled (c : Call) : Stage → Bytes
  | .taken => []
  | .idCopied => c.id
  | .cmdSet => c.id ++ [c.cmd]
  | .filled | .refused => c.frame

/-- The slice has the length of the frame, and the part of it that is written. -/
structure Filling (heap : BufferId → Bytes) (c : Call) (stage : Stage) (buf : Slice) : Prop where
  id : c.id.length = 36
  len : buf.len = 37 + c.data.length
  fits : buf.len ≤ (heap buf.buffer).length
  pooled : c.pooled = true → (heap buf.buffer).length = 37 + maxPacketData
  filled : c.filled stage <+: heap buf.buffer
  back : stage = .refused → c.pooled = true

def CallFine (heap : BufferId → Bytes) (c : Call) : Prop :=
  match c.pc with
  | .called => c.id.length = 36
  | .holding stage buf => Filling heap c stage buf
  | .crashed => False
  | _ => True

/-- The message is the frame of a call that has put it into this queue. -/
structure MessageFine (heap : BufferId → Bytes) (n : LinkId) (m : Message) (c : Call) : Prop where
  returned : c.pc = .returned true
  link : c.link = n
  id : c.id.length = 36
  len : m.data.len = c.frame.length
  frame : c.frame <+: heap m.data.buffer
  marked : m.pooled = c.pooled
  pooled : m.pooled = true → (heap m.data.buffer).length = 37 + maxPacketData

/-- The messages of a link that have not been written. -/
def Link.messages (l : Link) : List Message := l.send ++ l.writer.messages

structure Inv (s : State) : Prop where
  owned : Owned (· < s.next) (held s)
  pool : ∀ b ∈ s.pool, b.len = 37 + maxPacketData ∧ (s.heap b.buffer).length = 37 + maxPacketData
  calls : ∀ i, CallFine s.heap (s.calls i)
  messages : ∀ n, ∀ m ∈ (s.links n).messages, ∃ i, MessageFine s.heap n m (s.calls i)

theorem length_frame (c : Call) (h : c.id.length = 36) : c.frame.length = 37 + c.data.length := by
  rw [Call.frame, List.length_append, List.length_cons, h]
  omega

theorem Filling.same {heap heap' : BufferId → Bytes} {c : Call} {stage : Stage}
    (h : Filling heap c stage buf) (hheap : heap' buf.buffer = heap buf.buffer) :
    Filling heap' c stage buf :=
  ⟨h.id, h.len, hheap ▸ h.fits, hheap ▸ h.pooled, hheap ▸ h.filled, h.back⟩

/-- The call moves to another stage, and the buffer keeps its length. -/
theorem Filling.next {heap heap' : BufferId → Bytes} {c : Call} {stage stage' : Stage} {pc : CallPc}
    (h : Filling heap c stage buf)
    (hlen : (heap' buf.buffer).length = (heap buf.buffer).length)
    (hfilled : c.filled stage' <+: heap' buf.buffer) (hback : stage' = .refused → c.pooled = true) :
    Filling heap' { c with pc := pc } stage' buf := by
  refine ⟨h.id, h.len, hlen ▸ h.fits, fun hp => hlen ▸ h.pooled hp, ?_, hback⟩
  cases stage' <;> exact hfilled

theorem length_copyInto {content src : Bytes} {lo hi : Nat} (hlo : lo ≤ hi)
    (hhi : hi ≤ content.length) : (copyInto content lo hi src).length = content.length := by
  simp only [copyInto, List.length_append, List.length_take, List.length_drop]
  omega

theorem filled_copyID {content id : Bytes} (hid : id.length = 36) :
    id <+: copyInto content 0 36 id := by
  rw [WireFormat.copyInto_id hid]
  exact List.prefix_append _ _

theorem filled_setCmd {content id : Bytes} {cmd : UInt8} (hid : id.length = 36)
    (h36 : 36 < content.length) (h : id <+: content) : id ++ [cmd] <+: content.set 36 cmd := by
  obtain ⟨rest, rfl⟩ := h
  cases rest with
  | nil =>
    rw [List.append_nil, hid] at h36
    omega
  | cons x rest =>
    rw [List.set_append_right _ _ (Nat.le_of_eq hid), hid, Nat.sub_self, List.set_cons_zero]
    exact ⟨rest, by rw [List.append_assoc, List.singleton_append]⟩

theorem filled_copyData {content head data : Bytes} (hhead : head.length = 37)
    (h : head <+: content) : head ++ data <+: copyInto content 37 (37 + data.length) data := by
  obtain ⟨rest, rfl⟩ := h
  rw [WireFormat.copyInto_exact (by omega) (by omega), List.take_left' hhead]
  exact List.prefix_append _ _

theorem messages_setSend (s : State) (k n : LinkId) (send : List Message) :
    ((s.setSend k send).links n).messages =
      if n = k then send ++ (s.links n).writer.messages else (s.links n).messages := by
  by_cases h : n = k
  · subst h
    simp [State.setSend, Link.messages]
  · simp [State.setSend, h]

theorem messages_setWriter (s : State) (k n : LinkId) (pc : WriterPc) :
    ((s.setWriter k pc).links n).messages =
      if n = k then (s.links n).send ++ pc.messages else (s.links n).messages := by
  by_cases h : n = k
  · subst h
    simp [State.setWriter, Link.messages]
  · simp [State.setWriter, h]

theorem messages_closeDone (s : State) (k n : LinkId) :
    ((s.closeDone k).links n).messages = (s.links n).messages := by
  by_cases h : n = k
  · subst h
    simp [State.closeDone, Link.messages]
  · simp [State.closeDone, h]

/-- A writer that keeps its message or lets go of it. -/
theorem mem_setWriter {k : LinkId} {pc : WriterPc} {m : Message}
    (hpc : pc.messages = (s.links k).writer.messages ∨ pc.messages = [])
    (hm : m ∈ ((s.setWriter k pc).links n).messages) : m ∈ (s.links n).messages := by
  rw [messages_setWriter] at hm
  split at hm
  · rename_i hn
    subst hn
    rcases hpc with hpc | hpc
    · rw [hpc] at hm
      exact hm
    · rw [hpc, List.append_nil] at hm
      exact List.mem_append_left _ hm
  · exact hm

/-- A message is put into a queue by its call, and leaves it for the writer. -/
theorem messages_step (hs : step s e = some t) {m : Message} (hm : m ∈ (t.links n).messages) :
    m ∈ (s.links n).messages ∨ ∃ i buf, (s.calls i).pc = .holding .filled buf ∧
      (s.calls i).link = n ∧ m = ⟨buf, (s.calls i).pooled⟩ ∧ t.heap = s.heap ∧
      t.calls i = { s.calls i with pc := .returned true } := by
  cases step_effect hs with
  | @enqueue i buf hpc hroom =>
    rw [messages_setSend] at hm
    split at hm
    · rename_i hn
      rw [List.append_assoc] at hm
      rcases List.mem_append.mp hm with hm | hm
      · exact Or.inl (List.mem_append_left _ (hn ▸ hm))
      · rcases List.mem_append.mp hm with hm | hm
        · refine Or.inr ⟨i, buf, hpc, hn.symm, List.mem_singleton.mp hm, rfl, ?_⟩
          exact Function.update_self _ _ _
        · exact Or.inl (List.mem_append_right _ hm)
    · exact Or.inl hm
  | @take k msg rest hpc hsend =>
    refine Or.inl ?_
    rw [messages_setWriter] at hm
    split at hm
    · rename_i hn
      subst hn
      refine List.mem_append_left _ ?_
      rw [hsend]
      simpa [State.setSend, WriterPc.messages, or_comm] using hm
    · rename_i hn
      rw [messages_setSend, if_neg hn] at hm
      exact hm
  | writer he hpc => exact Or.inl (mem_setWriter hpc hm)
  | put hmsg hp hpc => exact Or.inl (mem_setWriter (Or.inr hpc) hm)
  | @fail k hpc =>
    have hkept := mem_setWriter (Or.inr rfl) hm
    rw [messages_closeDone] at hkept
    exact Or.inl hkept
  | close =>
    rw [messages_closeDone] at hm
    exact Or.inl hm
  | _ => exact Or.inl hm

/-- What `Put` gives back has its full length again. -/
theorem pool_step (hi : Inv s) (hs : step s e = some t) {x : Slice} (hx : x ∈ t.pool) :
    x ∈ s.pool ∨ (x.len = 37 + maxPacketData ∧ (s.heap x.buffer).length = 37 + maxPacketData ∧
      t.heap = s.heap) := by
  cases step_effect hs with
  | get hpc hp hget => exact Or.inl ((List.eraseIdx_sublist _ _).subset hx)
  | forget hget => exact Or.inl ((List.eraseIdx_sublist _ _).subset hx)
  | @putBack i buf hpc =>
    rcases List.mem_cons.mp hx with rfl | hx
    · have hcall := hi.calls i
      rw [CallFine, hpc] at hcall
      have hlen := hcall.pooled (hcall.back rfl)
      exact Or.inr ⟨hlen, hlen, rfl⟩
    · exact Or.inl hx
  | @put n msg pc hmsg hp hpc =>
    rcases List.mem_cons.mp hx with rfl | hx
    · have hmem : msg ∈ (s.links n).messages := by
        rw [Link.messages, hmsg]
        exact List.mem_append_right _ (List.mem_singleton_self _)
      obtain ⟨i, hm⟩ := hi.messages n msg hmem
      have hlen := hm.pooled hp
      exact Or.inr ⟨hlen, hlen, rfl⟩
    · exact Or.inl hx
  | _ => exact Or.inl hx

theorem setCall_calls (s : State) (i : CallId) (c : Call) : (s.setCall i c).calls i = c :=
  Function.update_self _ _ _

theorem goto_calls (s : State) (i : CallId) (pc : CallPc) :
    (s.goto i pc).calls i = { s.calls i with pc := pc } := setCall_calls s i _

theorem alloc_heap (s : State) (n : Nat) : (s.alloc n).heap s.next = make n :=
  Function.update_self _ _ _

theorem store_heap (s : State) (b : BufferId) (content : Bytes) :
    (s.store b content).heap b = content := Function.update_self _ _ _

/-- A buffer that is large enough is sliced, and nothing is in it yet. -/
theorem reslice_fine {s : State} {x : Slice} (hid : (s.calls i).id.length = 36)
    (hfits : 37 + (s.calls i).data.length ≤ (s.heap x.buffer).length)
    (hpooled : (s.calls i).pooled = true → (s.heap x.buffer).length = 37 + maxPacketData) :
    CallFine s.heap { s.calls i with pc := s.reslice i x } := by
  rw [State.reslice, if_pos hfits]
  exact ⟨hid, rfl, hfits, hpooled, List.nil_prefix, nofun⟩

/-- The call has stored the next part of its frame. -/
theorem store_fine {stage stage' : Stage} {content : Bytes}
    (h : Filling s.heap (s.calls i) stage buf)
    (hc : Stores (s.calls i) buf (s.heap buf.buffer) stage stage' content) :
    CallFine ((s.store buf.buffer content).goto i (.holding stage' buf)).heap
      (((s.store buf.buffer content).goto i (.holding stage' buf)).calls i) := by
  have hid := h.id
  have hlen := h.len
  have hfits := h.fits
  have hstored : content.length = (s.heap buf.buffer).length ∧
      (s.calls i).filled stage' <+: content ∧ stage' ≠ .refused := by
    cases hc with
    | id => exact ⟨length_copyInto (by omega) (by omega), filled_copyID hid, by simp⟩
    | cmd => exact ⟨List.length_set, filled_setCmd hid (by omega) h.filled, by simp⟩
    | data =>
      have hhead : ((s.calls i).id ++ [(s.calls i).cmd]).length = 37 := by
        rw [List.length_append, hid, List.length_singleton]
      have hframe : (s.calls i).frame = ((s.calls i).id ++ [(s.calls i).cmd]) ++ (s.calls i).data := by
        rw [Call.frame, List.append_assoc, List.singleton_append]
      refine ⟨length_copyInto (by omega) hfits, ?_, by simp⟩
      rw [Call.filled, hframe, hlen]
      exact filled_copyData hhead h.filled
  have hheap := store_heap s buf.buffer content
  rw [goto_calls]
  refine h.next ?_ ?_ fun he => absurd he hstored.2.2
  · exact (congrArg List.length hheap).trans hstored.1
  · exact hheap.symm ▸ hstored.2.1

/-- The call that acts finds its buffer as it left it, and large enough. -/
theorem call_step (hi : Inv s) (hs : step s e = some t) (he : actor e = some i) :
    CallFine t.heap (t.calls i) := by
  have hcall := hi.calls i
  cases step_effect hs with
  | @call i n id cmd data hpc =>
    cases he
    rw [setCall_calls]
    by_cases hid : id.length = 36
    · rw [if_neg (not_not.mpr hid)]
      exact hid
    · rw [if_pos hid]
      trivial
  | @get i k x hpc hp hx =>
    cases he
    rw [CallFine, hpc] at hcall
    have hlen := (hi.pool x (List.mem_of_getElem? hx)).2
    have hdata : (s.calls i).data.length ≤ maxPacketData := of_decide_eq_true hp
    have hfits : 37 + (s.calls i).data.length ≤ (s.heap x.buffer).length := by omega
    rw [goto_calls]
    exact reslice_fine hcall hfits fun _ => hlen
  | @getNew i hpc hp =>
    cases he
    rw [CallFine, hpc] at hcall
    have hdata : (s.calls i).data.length ≤ maxPacketData := of_decide_eq_true hp
    have hlen : ((s.alloc (37 + maxPacketData)).heap s.next).length = 37 + maxPacketData := by
      rw [alloc_heap, WireFormat.length_make]
    rw [goto_calls]
    refine reslice_fine (s := s.alloc (37 + maxPacketData)) hcall ?_ fun _ => hlen
    rw [hlen]
    exact Nat.add_le_add_left hdata 37
  | @make i hpc hp =>
    cases he
    rw [CallFine, hpc] at hcall
    have hlen : ((s.alloc (37 + (s.calls i).data.length)).heap s.next).length =
        37 + (s.calls i).data.length := by
      rw [alloc_heap, WireFormat.length_make]
    rw [goto_calls]
    refine ⟨hcall, rfl, Nat.le_of_eq hlen.symm, fun hyes => ?_, List.nil_prefix, nofun⟩
    have hno : (s.calls i).pooled = true := hyes
    rw [hp] at hno
    cases hno
  | @store e i stage stage' buf content hactor hpc hc =>
    cases hactor.symm.trans he
    rw [CallFine, hpc] at hcall
    exact store_fine hcall hc
  | @enqueue i buf hpc hroom =>
    cases he
    have hcalls := goto_calls s i (.returned true)
    simp only [State.setSend, CallFine, hcalls]
  | @refuse i buf hpc hdone =>
    cases he
    rw [CallFine, hpc] at hcall
    rw [goto_calls]
    by_cases hpooled : (s.calls i).pooled = true
    · rw [if_pos hpooled]
      exact hcall.next rfl hcall.filled fun _ => hpooled
    · rw [if_neg hpooled]
      trivial
  | @putBack i buf hpc =>
    cases he
    have hcalls := goto_calls s i (.returned false)
    simp only [State.setPool, CallFine, hcalls]
  | writer hactor hpc => cases hactor.symm.trans he
  | _ => cases he

/-! ## Runs -/

theorem message_held {m : Message} (hm : m ∈ (s.links n).messages) :
    m.buffer ∈ held s (.queued n) ++ held s (.writing n) := by
  rw [held, held, ← List.map_append]
  exact List.mem_map_of_mem hm

theorem queues_kept (h : Owned (· < s.next) (held s)) : QueuesKept s e := by
  intro t hs n b hb
  rcases List.mem_append.mp hb with hb | hb
  · exact heap_kept h hs hb nofun
  · exact heap_kept h hs hb nofun

/-- The message of a call that finds room in the queue. -/
theorem Filling.message {c : Call} {heap : BufferId → Bytes} (h : Filling heap c .filled buf) :
    MessageFine heap c.link ⟨buf, c.pooled⟩ { c with pc := .returned true } where
  returned := rfl
  link := rfl
  id := h.id
  len := h.len.trans (length_frame c h.id).symm
  frame := h.filled
  marked := rfl
  pooled := h.pooled

theorem inv_initial : Inv initial where
  owned := by
    have hnone : held initial = fun _ => [] := by
      funext p
      cases p <;> rfl
    rw [hnone]
    exact owned_nil
  pool := fun b hb => absurd hb List.not_mem_nil
  calls := fun _ => trivial
  messages := fun n m hm => absurd hm List.not_mem_nil

theorem inv_step (hi : Inv s) (hs : step s e = some t) : Inv t where
  owned := owned_step hi.owned hs
  pool := by
    intro x hx
    rcases pool_step hi hs hx with hx | ⟨hlen, hcap, hheap⟩
    · have hkept : t.heap x.buffer = s.heap x.buffer :=
        heap_kept hi.owned hs (p := .pool) (List.mem_map_of_mem hx) nofun
      rw [hkept]
      exact hi.pool x hx
    · rw [hheap]
      exact ⟨hlen, hcap⟩
  calls := by
    intro i
    by_cases he : actor e = some i
    · exact call_step hi hs he
    · have hcall := hi.calls i
      rw [calls_kept hs he]
      unfold CallFine at hcall ⊢
      split at hcall <;> rename_i hpc
      · exact hcall
      · rename_i stage buf
        have hheld : buf.buffer ∈ held s (.filling i) := by
          rw [held, hpc]
          exact List.mem_singleton_self _
        have hkept : t.heap buf.buffer = s.heap buf.buffer := by
          refine heap_kept hi.owned hs hheld fun j hj hp => he ?_
          cases hp
          exact hj
        exact hcall.same hkept
      · exact hcall.elim
      · trivial
  messages := by
    intro n m hm
    rcases messages_step hs hm with hm | ⟨i, buf, hpc, rfl, rfl, hheap, hcalls⟩
    · obtain ⟨i, hfine⟩ := hi.messages n m hm
      have hkept : t.heap m.data.buffer = s.heap m.data.buffer :=
        queues_kept hi.owned t hs n _ (message_held hm)
      refine ⟨i, ?_⟩
      rw [returned_kept hs hfine.returned]
      exact { hfine with frame := hkept ▸ hfine.frame, pooled := hkept ▸ hfine.pooled }
    · have hcall := hi.calls i
      rw [CallFine, hpc] at hcall
      refine ⟨i, ?_⟩
      rw [hcalls, hheap]
      exact hcall.message

theorem Inv.oneOwner (hi : Inv s) : OneOwner s where
  exclusive := hi.owned.exclusive
  sized := hi.pool
  inRange := by
    intro b hb data hdata
    have hlen := (hi.pool b hb).2
    omega
  crashed := by
    intro i hpc
    have hcall := hi.calls i
    rw [CallFine, hpc] at hcall
    exact hcall

/-- Every buffer has one owner, and those in the pool have their full length. -/
theorem buffers_have_one_owner (es : List Event) :
    Always step OneOwner initial es ∧ Meets step QueuesKept initial es := by
  have hstep : ∀ s e t, Inv s → True → step s e = some t → Inv t :=
    fun _ _ _ hi _ hs => inv_step hi hs
  have hmeets : Meets step (fun _ _ => True) initial es := meets_of_forall (fun _ _ => trivial) initial es
  refine ⟨?_, ?_⟩
  · exact always_of_invariant hstep (fun _ => Inv.oneOwner) inv_initial hmeets
  · exact meets_of_invariant hstep (fun _ _ hi _ => queues_kept hi.owned) inv_initial hmeets

/-- What is in a queue or being written is what `sendPacket` makes of the
arguments of a call, whatever the buffer was used for before. -/
def Intact (s : State) : Prop :=
  ∀ n, ∀ m ∈ (s.links n).messages, ∃ i, (s.calls i).pc = .returned true ∧ (s.calls i).link = n ∧
    ∀ old, WireFormat.Worker.sendPacket old (s.calls i).id (s.calls i).cmd (s.calls i).data =
      some ⟨.binary, (s.heap m.data.buffer).take m.data.len, m.pooled⟩

theorem Inv.intact (hi : Inv s) : Intact s := by
  intro n m hm
  obtain ⟨i, h⟩ := hi.messages n m hm
  refine ⟨i, h.returned, h.link, fun old => ?_⟩
  have hframe : (s.heap m.data.buffer).take m.data.len = (s.calls i).frame := by
    rw [h.len]
    exact (List.prefix_iff_eq_take.mp h.frame).symm
  rw [WireFormat.sendPacket_eq old h.id, hframe, h.marked]
  rfl

/-- No frame is mixed with another one before it is on the wire. -/
theorem messages_intact (es : List Event) : Always step Intact initial es :=
  always_of_invariant (C := fun _ _ => True) (fun _ _ _ hi _ hs => inv_step hi hs)
    (fun _ => Inv.intact) inv_initial (meets_of_forall (fun _ _ => trivial) initial es)

end SplitProxy.PacketBuffers
