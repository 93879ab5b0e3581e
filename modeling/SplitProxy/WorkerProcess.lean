import SplitProxy.WorkerSession
import Mathlib.Logic.Function.Basic
import Mathlib.Data.List.Basic

/-!
# The worker process

The `handleBrokerConnection` loop of every broker connection in turn, the open
goroutines it spawns, the writer and the reader each of them starts, and the map
of sessions they all share. The session an open goroutine makes is kept with the
goroutine under one number; the map leads from ids to these numbers.
-/
namespace SplitProxy.WorkerProcess

open Runs
open WorkerSession (CloseStage Target maxPacketData sessionWriteQueue targetBuffer)

/-- `string(msg[:36])` -/
abbrev SessionId := { b : Payload // b.length = 36 }

/-- Where `openTCP` and `openUDP` stand. -/
inductive OpenPc where
  | spawned
  | checked
  | loaded
  | stored
  | dialing
  | dialed
  | connecting
  | connSet
  | sendConnected
  | dialFailed
  | failed
  | sendClose
  | refused
  | abortClose
  | abortDelete
  /-- returned from the last line -/
  | connected
  | returned
  deriving DecidableEq, Repr

/-- An open goroutine and the session it makes. -/
structure Session where
  id : SessionId
  udp : Bool
  addr : Payload
  /-- the broker connection whose `done` and `send` the goroutine was given -/
  link : Nat
  /-- the session has been put into the map -/
  stored : Bool
  opener : OpenPc
  stage : CloseStage
  conn : Bool
  target : Target
  deriving DecidableEq

inductive WriterPc where
  | notStarted
  | select
  | got (chunk : Payload)
  | write (rest : Payload)
  | load
  | close (i : Nat)
  | delete
  | returned
  deriving DecidableEq, Repr

inductive ReaderPc where
  | notStarted
  | start
  | read
  | send (rest : Payload) (eof : Bool)
  | check
  | close
  | delete
  | sendClose
  | returned
  deriving DecidableEq, Repr

/-- `sessionWriter`, the reader and `writeCh` of a session. -/
structure Streams where
  writer : WriterPc
  reader : ReaderPc
  writeCh : List Payload

/-- Who calls `Session.close` on the connection loop: `closeSession` for a close
frame, or for a full write queue, or the scan at the end. -/
inductive Caller where
  | frame
  | overflow
  | scan
  deriving DecidableEq, Repr

inductive LoopPc where
  | reading
  | dispatch (f : Frame SessionId)
  | enqueue (i : Nat) (id : SessionId) (payload : Payload)
  | overflow (id : SessionId)
  | closing (i : Nat) (id : SessionId) (who : Caller)
  | deleting (i : Nat) (id : SessionId) (who : Caller)
  | sendClose (id : SessionId)
  | leaving
  | scanning
  | returned
  deriving DecidableEq

/-- One broker connection: `done`, `send`, and whether `brokerWriter` still runs. -/
structure Link where
  done : Bool
  send : Fifo (Frame SessionId)
  writing : Bool

structure State where
  /-- the context of the process -/
  cancelled : Bool
  /-- the number of the broker connection the loop works for -/
  link : Nat
  links : Nat → Link
  loop : LoopPc
  sessions : SessionId → Option Nat
  /-- ids `sessions.Range` still has to visit -/
  owed : SessionId → Bool
  opens : List Session
  streams : Nat → Streams
  /-- the command of the last frame the loop has taken up for an id -/
  lastFrame : SessionId → Option Command

def start : State where
  cancelled := false
  link := 0
  links := fun _ => ⟨false, .empty, true⟩
  loop := .reading
  sessions := fun _ => none
  owed := fun _ => false
  opens := []
  streams := fun _ => ⟨.notStarted, .notStarted, []⟩
  lastFrame := fun _ => none

/-! ## What the goroutines share -/

/-- `session.done` is closed. -/
def isDone (x : Session) : Bool := x.stage ≠ .opened

/-- The next step of `Session.close`, whoever called it first. -/
def closeStep (x : Session) : Session :=
  match x.stage with
  | .opened => { x with stage := .doneClosed }
  | .doneClosed => { x with stage := .connTaken x.conn, conn := false }
  | .connTaken had => { x with stage := .closed, target := if had then .closed else x.target }
  | .closed => x

def State.close (s : State) (i : Nat) : State := { s with opens := s.opens.modify i closeStep }

/-- `sessions.Delete(id)` -/
def State.delete (s : State) (id : SessionId) : State :=
  { s with
    sessions := Function.update s.sessions id none
    owed := Function.update s.owed id false }

def State.set (s : State) (i : Nat) (x : Session) : State := { s with opens := s.opens.set i x }

def State.goto (s : State) (i : Nat) (x : Session) (pc : OpenPc) : State :=
  s.set i { x with opener := pc }

def State.setStreams (s : State) (i : Nat) (g : Streams) : State :=
  { s with streams := Function.update s.streams i g }

def State.setLink (s : State) (n : Nat) (l : Link) : State :=
  { s with links := Function.update s.links n l }

/-- `closeDone`, with `ws.Close` -/
def State.closeDone (s : State) (n : Nat) : State := s.setLink n { s.links n with done := true }

/-- `sendPacket`: with `ok` the select takes the send case, without it the done case. -/
def State.sendPacket (s : State) (n : Nat) (f : Frame SessionId) (ok : Bool) : Option State :=
  let l := s.links n
  if ok then
    if l.send.queue.length < brokerWriteQueue then
      some (s.setLink n { l with send := l.send.push f })
    else none
  else if l.done then some s else none

/-- The message after the length check. -/
def parseFrame (msg : Payload) : Option (Frame SessionId) :=
  if h : 36 < msg.length then
    some ⟨⟨msg.take 36, by simp; omega⟩, Command.ofByte msg[36], msg.drop 37⟩
  else none

/-! ## The goroutines of a session -/

/-- `openTCP` and `openUDP`; `choice` is the outcome of the dial, and of a select. -/
def openStep (s : State) (i : Nat) (x : Session) (choice : Bool) : Option State :=
  match x.opener with
  | .spawned => some (s.goto i x (if s.cancelled then .returned else .checked))
  | .checked => some (s.goto i x (if (s.sessions x.id).isSome then .returned else .loaded))
  | .loaded =>
    if (s.sessions x.id).isSome then some (s.goto i x .returned)
    else
      some { s.set i { x with opener := .stored, stored := true } with
        sessions := Function.update s.sessions x.id (some i) }
  | .stored => some (s.goto i x (if s.cancelled then .abortClose else .dialing))
  | .dialing =>
    if choice then some (s.set i { x with opener := .dialed, target := .opened })
    else some (s.goto i x .dialFailed)
  | .dialed =>
    if s.cancelled then some (s.set i { x with opener := .abortClose, target := .closed })
    else some (s.goto i x .connecting)
  | .connecting =>
    if isDone x then some (s.set i { x with opener := .refused, target := .closed })
    else some (s.set i { x with opener := .connSet, conn := true })
  | .connSet =>
    some ((s.goto i x .sendConnected).setStreams i
      { s.streams i with writer := .select, reader := .start })
  | .sendConnected =>
    (s.sendPacket x.link ⟨x.id, .connected, []⟩ choice).map
      fun t => t.goto i x (if choice then .connected else .abortClose)
  | .dialFailed => some ((s.delete x.id).goto i x .failed)
  | .failed => some (s.goto i x (if s.cancelled then .returned else .sendClose))
  | .sendClose => (s.sendPacket x.link ⟨x.id, .close, []⟩ choice).map fun t => t.goto i x .returned
  | .refused => some ((s.delete x.id).goto i x .returned)
  | .abortClose => if x.stage = .closed then some (s.goto i x .abortDelete) else some (s.close i)
  | .abortDelete => some ((s.delete x.id).goto i x .returned)
  | .connected | .returned => none

inductive WriterEvent where
  | stop
  | take
  | getConn (deadlineSet : Bool)
  | wrote (n : Nat)
  | failed
  /-- the next step of `closeSession` -/
  | closeSession
  deriving DecidableEq, Repr

/-- `sessionWriter` -/
def writeStep (s : State) (i : Nat) (x : Session) (g : Streams) : WriterEvent → Option State
  | .stop =>
    if g.writer = .select ∧ ((s.links x.link).done || isDone x) = true then
      some (s.setStreams i { g with writer := .returned })
    else none
  | .take =>
    match g.writer, g.writeCh with
    | .select, chunk :: rest => some (s.setStreams i { g with writer := .got chunk, writeCh := rest })
    | _, _ => none
  | .getConn deadlineSet =>
    match g.writer with
    | .got chunk =>
      if x.conn = false then some (s.setStreams i { g with writer := .returned })
      else if deadlineSet = false then some (s.setStreams i { g with writer := .load })
      else some (s.setStreams i { g with writer := if chunk = [] then .select else .write chunk })
    | _ => none
  | .wrote n =>
    match g.writer with
    | .write rest =>
      if 0 < n ∧ n ≤ rest.length ∧ x.target = .opened then
        some (s.setStreams i
          { g with writer := if rest.drop n = [] then .select else .write (rest.drop n) })
      else none
    | _ => none
  | .failed =>
    match g.writer with
    | .write _ => some (s.setStreams i { g with writer := .load })
    | _ => none
  | .closeSession =>
    match g.writer with
    | .load =>
      match s.sessions x.id with
      | none => some (s.setStreams i { g with writer := .returned })
      | some j => some (s.setStreams i { g with writer := .close j })
    | .close j =>
      match s.opens[j]? with
      | none => none
      | some y =>
        if y.stage = .closed then some (s.setStreams i { g with writer := .delete })
        else some (s.close j)
    | .delete => some ((s.delete x.id).setStreams i { g with writer := .returned })
    | _ => none

inductive ReaderEvent where
  | read (chunk : Payload) (eof : Bool)
  | send (ok : Bool)
  | next
  deriving DecidableEq, Repr

/-- What one call of `sendPacket` takes from the bytes read: a datagram goes out whole. -/
def frameSize (x : Session) (rest : Payload) : Nat :=
  if x.udp then rest.length else maxPacketData

def afterRead (eof : Bool) : ReaderPc := if eof then .close else .check

def dataCommand (x : Session) : Command := if x.udp then .udpData else .data

/-- `remoteReader` and `remoteUDPReader` -/
def readStep (s : State) (i : Nat) (x : Session) (g : Streams) : ReaderEvent → Option State
  | .read chunk eof =>
    if g.reader = .read ∧ chunk.length ≤ targetBuffer ∧
        (x.target = .opened ∨ (chunk = [] ∧ eof = true)) then
      some (s.setStreams i { g with reader := if chunk = [] then afterRead eof else .send chunk eof })
    else none
  | .send ok =>
    match g.reader with
    | .send rest eof =>
      let n := frameSize x rest
      (s.sendPacket x.link ⟨x.id, dataCommand x, rest.take n⟩ ok).map fun t =>
        t.setStreams i { g with
          reader :=
            if ok = false then .close
            else if rest.drop n = [] then afterRead eof
            else .send (rest.drop n) eof }
    | .sendClose =>
      (s.sendPacket x.link ⟨x.id, .close, []⟩ ok).map
        fun t => t.setStreams i { g with reader := .returned }
    | _ => none
  | .next =>
    match g.reader with
    | .start => some (s.setStreams i { g with reader := if x.conn then .read else .returned })
    | .check =>
      some (s.setStreams i { g with
        reader := if (s.links x.link).done || isDone x then .close else .read })
    | .close =>
      if x.stage = .closed then some (s.setStreams i { g with reader := .delete })
      else some (s.close i)
    | .delete => some ((s.delete x.id).setStreams i { g with reader := .sendClose })
    | _ => none

/-! ## The connection loop -/

inductive LoopEvent where
  | receive (msg : Payload)
  | readError
  | dispatch
  | queue
  | drop
  | full
  /-- the next step of `closeSession`, or of the function given to `sessions.Range` -/
  | next
  | send (ok : Bool)
  | scanBegin
  | visit (id : SessionId)
  | scanEnd
  | reconnect
  deriving DecidableEq

def newSession (s : State) (f : Frame SessionId) : Session where
  id := f.id
  udp := f.cmd = .udpConnect
  addr := f.payload
  link := s.link
  stored := false
  opener := .spawned
  stage := .opened
  conn := false
  target := .absent

/-- The switch on the command of a frame. -/
def dispatch (s : State) (f : Frame SessionId) : State :=
  match f.cmd with
  | .connect | .udpConnect =>
    if s.cancelled then { s with loop := .reading }
    else { s with loop := .reading, opens := s.opens ++ [newSession s f] }
  | .data | .udpData =>
    match s.sessions f.id with
    | none => { s with loop := .reading }
    | some i => { s with loop := .enqueue i f.id f.payload }
  | .close =>
    match s.sessions f.id with
    | none => { s with loop := .reading }
    | some i => { s with loop := .closing i f.id .frame }
  | _ => { s with loop := .reading }

/-- Where the loop goes after `sessions.Delete`. -/
def Caller.after (id : SessionId) : Caller → LoopPc
  | .frame => .sendClose id
  | .overflow => .reading
  | .scan => .scanning

def loopStep (s : State) : LoopEvent → Option State
  | .receive msg =>
    if s.loop = .reading then
      if s.cancelled then some { s.closeDone s.link with loop := .leaving }
      else
        match parseFrame msg with
        | none => some s
        | some f =>
          some { s with
            loop := .dispatch f
            lastFrame := Function.update s.lastFrame f.id (some f.cmd) }
    else none
  | .readError =>
    if s.loop = .reading then some { s.closeDone s.link with loop := .leaving } else none
  | .dispatch =>
    match s.loop with
    | .dispatch f => some (dispatch s f)
    | _ => none
  | .queue =>
    match s.loop with
    | .enqueue i _ payload =>
      let g := s.streams i
      if g.writeCh.length < sessionWriteQueue then
        some { s.setStreams i { g with writeCh := g.writeCh ++ [payload] } with loop := .reading }
      else none
    | _ => none
  | .drop =>
    match s.loop with
    | .enqueue i _ _ =>
      if ((s.links s.link).done || (s.opens[i]?).any isDone) = true then
        some { s with loop := .reading }
      else none
    | _ => none
  | .full =>
    match s.loop with
    | .enqueue i id _ =>
      if ((s.links s.link).done || (s.opens[i]?).any isDone) = false ∧
          sessionWriteQueue ≤ (s.streams i).writeCh.length then
        some { s with loop := .overflow id }
      else none
    | _ => none
  | .next =>
    match s.loop with
    | .overflow id =>
      match s.sessions id with
      | none => some { s with loop := .reading }
      | some i => some { s with loop := .closing i id .overflow }
    | .closing i id who =>
      match s.opens[i]? with
      | none => none
      | some x =>
        if x.stage = .closed then some { s with loop := .deleting i id who } else some (s.close i)
    | .deleting _ id who => some { s.delete id with loop := who.after id }
    | _ => none
  | .send ok =>
    match s.loop with
    | .sendClose id =>
      (s.sendPacket s.link ⟨id, .close, []⟩ ok).map fun t => { t with loop := .reading }
    | _ => none
  | .scanBegin =>
    if s.loop = .leaving then
      some { s with loop := .scanning, owed := fun id => (s.sessions id).isSome }
    else none
  | .visit id =>
    if s.loop = .scanning then
      (s.sessions id).map fun i =>
        { s with loop := .closing i id .scan, owed := Function.update s.owed id false }
    else none
  | .scanEnd =>
    if s.loop = .scanning ∧ (s.opens.all fun x => !s.owed x.id) = true then
      some { s with loop := .returned }
    else none
  | .reconnect =>
    if s.loop = .returned ∧ s.cancelled = false then
      some { s with loop := .reading, link := s.link + 1 }
    else none

/-! ## The process -/

inductive Event where
  | cancel
  /-- the goroutine that waits for the context -/
  | watch
  | brokerWrite (n : Nat) (ok : Bool)
  | brokerPing (n : Nat)
  | brokerStop (n : Nat)
  | opener (i : Nat) (choice : Bool)
  | writer (i : Nat) (a : WriterEvent)
  | reader (i : Nat) (a : ReaderEvent)
  | loop (a : LoopEvent)
  deriving DecidableEq

def step (s : State) : Event → Option State
  | .cancel => some { s with cancelled := true }
  | .watch => if s.cancelled then some (s.closeDone s.link) else none
  | .brokerWrite n ok =>
    let l := s.links n
    if n ≤ s.link ∧ l.writing = true then
      l.send.pop.map fun r =>
        s.setLink n (if ok then { l with send := r.2 }
          else { l with send := r.2, done := true, writing := false })
    else none
  | .brokerPing n =>
    -- a ping that fails
    if n ≤ s.link ∧ (s.links n).writing = true then
      some (s.setLink n { s.links n with done := true, writing := false })
    else none
  | .brokerStop n =>
    if n ≤ s.link ∧ (s.links n).writing = true ∧ (s.links n).done = true then
      some (s.setLink n { s.links n with writing := false })
    else none
  | .opener i choice =>
    match s.opens[i]? with
    | none => none
    | some x => openStep s i x choice
  | .writer i a =>
    match s.opens[i]? with
    | none => none
    | some x => writeStep s i x (s.streams i) a
  | .reader i a =>
    match s.opens[i]? with
    | none => none
    | some x => readStep s i x (s.streams i) a
  | .loop a => loopStep s a

/-! ## Conditions that can be decided -/

instance decidableForallOpens (l : List Session) (P : Nat → Session → Prop)
    [∀ i x, Decidable (P i x)] : Decidable (∀ i x, l[i]? = some x → P i x) :=
  decidable_of_iff (∀ p ∈ l.zipIdx, P p.2 p.1)
    ⟨fun h i x hi => h (x, i) (List.mem_zipIdx_iff_getElem?.mpr hi),
      fun h p hp => h p.2 p.1 (List.mem_zipIdx_iff_getElem?.mp hp)⟩

instance decidableForallOpen (o : Option Session) (P : Session → Prop) [∀ x, Decidable (P x)] :
    Decidable (∀ x, o = some x → P x) :=
  match o with
  | none => isTrue nofun
  | some x => decidable_of_iff (P x) ⟨fun h _ hy => Option.some.inj hy ▸ h, fun h => h x rfl⟩

instance decidableForallFrame (pc : LoopPc) (P : Frame SessionId → Prop) [∀ f, Decidable (P f)] :
    Decidable (∀ f, pc = .dispatch f → P f) :=
  match pc with
  | .dispatch f => decidable_of_iff (P f) ⟨fun h g hg => by cases hg; exact h, fun h => h f rfl⟩
  | .reading | .enqueue _ _ _ | .overflow _ | .closing _ _ _ | .deleting _ _ _ | .sendClose _
  | .leaving | .scanning | .returned => isTrue nofun

/-! ## What a step does -/

section Moves

variable {s t : State} {x : Session} {g : Streams} {i : Nat}

/-- A step of `sessionWriter`. -/
inductive WriteMove (s : State) (i : Nat) (x : Session) (g : Streams) :
    WriterEvent → State → Prop where
  | stop (hw : g.writer = .select) (hd : ((s.links x.link).done || isDone x) = true) :
      WriteMove s i x g .stop (s.setStreams i { g with writer := .returned })
  | take {chunk : Payload} {rest : List Payload} (hw : g.writer = .select)
      (hch : g.writeCh = chunk :: rest) :
      WriteMove s i x g .take (s.setStreams i { g with writer := .got chunk, writeCh := rest })
  | connGone {chunk : Payload} {deadlineSet : Bool} (hw : g.writer = .got chunk)
      (hc : x.conn = false) :
      WriteMove s i x g (.getConn deadlineSet) (s.setStreams i { g with writer := .returned })
  | deadlineFailed {chunk : Payload} (hw : g.writer = .got chunk) (hc : x.conn = true) :
      WriteMove s i x g (.getConn false) (s.setStreams i { g with writer := .load })
  | connFound {chunk : Payload} (hw : g.writer = .got chunk) (hc : x.conn = true) :
      WriteMove s i x g (.getConn true)
        (s.setStreams i { g with writer := if chunk = [] then .select else .write chunk })
  | wrote {n : Nat} {rest : Payload} (hw : g.writer = .write rest)
      (hn : 0 < n ∧ n ≤ rest.length) (ht : x.target = .opened) :
      WriteMove s i x g (.wrote n) (s.setStreams i
        { g with writer := if rest.drop n = [] then .select else .write (rest.drop n) })
  | failed {rest : Payload} (hw : g.writer = .write rest) :
      WriteMove s i x g .failed (s.setStreams i { g with writer := .load })
  | gone (hw : g.writer = .load) (hm : s.sessions x.id = none) :
      WriteMove s i x g .closeSession (s.setStreams i { g with writer := .returned })
  | loaded {j : Nat} (hw : g.writer = .load) (hm : s.sessions x.id = some j) :
      WriteMove s i x g .closeSession (s.setStreams i { g with writer := .close j })
  | closes {j : Nat} {y : Session} (hw : g.writer = .close j) (hj : s.opens[j]? = some y)
      (hy : y.stage ≠ .closed) : WriteMove s i x g .closeSession (s.close j)
  | closed {j : Nat} {y : Session} (hw : g.writer = .close j) (hj : s.opens[j]? = some y)
      (hy : y.stage = .closed) :
      WriteMove s i x g .closeSession (s.setStreams i { g with writer := .delete })
  | deletes (hw : g.writer = .delete) :
      WriteMove s i x g .closeSession
        ((s.delete x.id).setStreams i { g with writer := .returned })

theorem writeStep_move {a : WriterEvent} (h : writeStep s i x g a = some t) :
    WriteMove s i x g a t := by
  cases a with
  | stop =>
    simp only [writeStep] at h
    split at h
    · rename_i hp
      cases h
      exact .stop hp.1 hp.2
    · cases h
  | take =>
    simp only [writeStep] at h
    split at h
    · rename_i hw hch
      cases h
      exact .take hw hch
    · cases h
  | getConn deadlineSet =>
    simp only [writeStep] at h
    split at h
    · rename_i hw
      split at h
      · rename_i hc
        cases h
        exact .connGone hw hc
      · rename_i hc
        have hc : x.conn = true := by simpa using hc
        split at h
        · rename_i hd
          cases h
          subst hd
          exact .deadlineFailed hw hc
        · rename_i hd
          have hd : deadlineSet = true := by simpa using hd
          cases h
          subst hd
          exact .connFound hw hc
    · cases h
  | wrote n =>
    simp only [writeStep] at h
    split at h
    · rename_i hw
      split at h
      · rename_i hn
        cases h
        exact .wrote hw ⟨hn.1, hn.2.1⟩ hn.2.2
      · cases h
    · cases h
  | failed =>
    simp only [writeStep] at h
    split at h <;> cases h
    exact .failed ‹_›
  | closeSession =>
    simp only [writeStep] at h
    split at h
    · rename_i hw
      split at h
      · rename_i hm
        cases h
        exact .gone hw hm
      · rename_i hm
        cases h
        exact .loaded hw hm
    · rename_i hw
      split at h
      · cases h
      · rename_i hj
        split at h
        · rename_i hy
          cases h
          exact .closed hw hj hy
        · rename_i hy
          cases h
          exact .closes hw hj hy
    · rename_i hw
      cases h
      exact .deletes hw
    · cases h

/-- A step of `remoteReader` or `remoteUDPReader`. -/
inductive ReadMove (s : State) (i : Nat) (x : Session) (g : Streams) :
    ReaderEvent → State → Prop where
  | read {chunk : Payload} {eof : Bool} (hr : g.reader = .read)
      (hlen : chunk.length ≤ targetBuffer) (ht : x.target = .opened ∨ (chunk = [] ∧ eof = true)) :
      ReadMove s i x g (.read chunk eof)
        (s.setStreams i { g with reader := if chunk = [] then afterRead eof else .send chunk eof })
  | data {rest : Payload} {eof ok : Bool} {t : State} (hr : g.reader = .send rest eof)
      (hu : s.sendPacket x.link ⟨x.id, dataCommand x, rest.take (frameSize x rest)⟩ ok = some t) :
      ReadMove s i x g (.send ok) (t.setStreams i { g with
        reader :=
          if ok = false then .close
          else if rest.drop (frameSize x rest) = [] then afterRead eof
          else .send (rest.drop (frameSize x rest)) eof })
  | closeSent {ok : Bool} {t : State} (hr : g.reader = .sendClose)
      (hu : s.sendPacket x.link ⟨x.id, .close, []⟩ ok = some t) :
      ReadMove s i x g (.send ok) (t.setStreams i { g with reader := .returned })
  | start (hr : g.reader = .start) :
      ReadMove s i x g .next
        (s.setStreams i { g with reader := if x.conn then .read else .returned })
  | check (hr : g.reader = .check) :
      ReadMove s i x g .next (s.setStreams i { g with
        reader := if (s.links x.link).done || isDone x then .close else .read })
  | closes (hr : g.reader = .close) (hx : x.stage ≠ .closed) :
      ReadMove s i x g .next (s.close i)
  | closed (hr : g.reader = .close) (hx : x.stage = .closed) :
      ReadMove s i x g .next (s.setStreams i { g with reader := .delete })
  | deletes (hr : g.reader = .delete) :
      ReadMove s i x g .next ((s.delete x.id).setStreams i { g with reader := .sendClose })

theorem readStep_move {a : ReaderEvent} (h : readStep s i x g a = some t) :
    ReadMove s i x g a t := by
  cases a with
  | read chunk eof =>
    simp only [readStep] at h
    split at h
    · rename_i hp
      cases h
      exact .read hp.1 hp.2.1 hp.2.2
    · cases h
  | send ok =>
    simp only [readStep] at h
    split at h
    · rename_i hr
      obtain ⟨u, hu, rfl⟩ := Option.map_eq_some_iff.mp h
      exact .data hr hu
    · rename_i hr
      obtain ⟨u, hu, rfl⟩ := Option.map_eq_some_iff.mp h
      exact .closeSent hr hu
    · cases h
  | next =>
    simp only [readStep] at h
    split at h
    · rename_i hr
      cases h
      exact .start hr
    · rename_i hr
      cases h
      exact .check hr
    · rename_i hr
      split at h
      · rename_i hx
        cases h
        exact .closed hr hx
      · rename_i hx
        cases h
        exact .closes hr hx
    · rename_i hr
      cases h
      exact .deletes hr
    · cases h

/-- A step of the connection loop. -/
inductive LoopMove (s : State) : LoopEvent → State → Prop where
  | stopped {msg : Payload} (hl : s.loop = .reading) (hc : s.cancelled = true) :
      LoopMove s (.receive msg) { s.closeDone s.link with loop := .leaving }
  | short {msg : Payload} (hl : s.loop = .reading) (hf : parseFrame msg = none) :
      LoopMove s (.receive msg) s
  | receive {msg : Payload} {f : Frame SessionId} (hl : s.loop = .reading)
      (hf : parseFrame msg = some f) :
      LoopMove s (.receive msg) { s with
        loop := .dispatch f
        lastFrame := Function.update s.lastFrame f.id (some f.cmd) }
  | readError (hl : s.loop = .reading) :
      LoopMove s .readError { s.closeDone s.link with loop := .leaving }
  | dispatch {f : Frame SessionId} (hl : s.loop = .dispatch f) :
      LoopMove s .dispatch (WorkerProcess.dispatch s f)
  | queue {j : Nat} {id : SessionId} {payload : Payload} (hl : s.loop = .enqueue j id payload)
      (hroom : (s.streams j).writeCh.length < sessionWriteQueue) :
      LoopMove s .queue { s.setStreams j
          { s.streams j with writeCh := (s.streams j).writeCh ++ [payload] } with
        loop := .reading }
  | drop {j : Nat} {id : SessionId} {payload : Payload} (hl : s.loop = .enqueue j id payload)
      (hd : ((s.links s.link).done || (s.opens[j]?).any isDone) = true) :
      LoopMove s .drop { s with loop := .reading }
  | full {j : Nat} {id : SessionId} {payload : Payload} (hl : s.loop = .enqueue j id payload)
      (hd : ((s.links s.link).done || (s.opens[j]?).any isDone) = false)
      (hfull : sessionWriteQueue ≤ (s.streams j).writeCh.length) :
      LoopMove s .full { s with loop := .overflow id }
  | gone {id : SessionId} (hl : s.loop = .overflow id) (hm : s.sessions id = none) :
      LoopMove s .next { s with loop := .reading }
  | overflow {id : SessionId} {j : Nat} (hl : s.loop = .overflow id) (hm : s.sessions id = some j) :
      LoopMove s .next { s with loop := .closing j id .overflow }
  | closes {j : Nat} {id : SessionId} {who : Caller} {x : Session}
      (hl : s.loop = .closing j id who) (hj : s.opens[j]? = some x) (hx : x.stage ≠ .closed) :
      LoopMove s .next (s.close j)
  | closed {j : Nat} {id : SessionId} {who : Caller} {x : Session}
      (hl : s.loop = .closing j id who) (hj : s.opens[j]? = some x) (hx : x.stage = .closed) :
      LoopMove s .next { s with loop := .deleting j id who }
  | deletes {j : Nat} {id : SessionId} {who : Caller} (hl : s.loop = .deleting j id who) :
      LoopMove s .next { s.delete id with loop := who.after id }
  | send {id : SessionId} {ok : Bool} {t : State} (hl : s.loop = .sendClose id)
      (hu : s.sendPacket s.link ⟨id, .close, []⟩ ok = some t) :
      LoopMove s (.send ok) { t with loop := .reading }
  | scanBegin (hl : s.loop = .leaving) :
      LoopMove s .scanBegin { s with loop := .scanning, owed := fun id => (s.sessions id).isSome }
  | visit {id : SessionId} {j : Nat} (hl : s.loop = .scanning) (hm : s.sessions id = some j) :
      LoopMove s (.visit id)
        { s with loop := .closing j id .scan, owed := Function.update s.owed id false }
  | scanEnd (hl : s.loop = .scanning) (howed : (s.opens.all fun x => !s.owed x.id) = true) :
      LoopMove s .scanEnd { s with loop := .returned }
  | reconnect (hl : s.loop = .returned) (hc : s.cancelled = false) :
      LoopMove s .reconnect { s with loop := .reading, link := s.link + 1 }

theorem loopStep_move {a : LoopEvent} (h : loopStep s a = some t) : LoopMove s a t := by
  cases a with
  | receive msg =>
    simp only [loopStep] at h
    split at h
    · rename_i hl
      split at h
      · rename_i hc
        cases h
        exact .stopped hl hc
      · split at h
        · rename_i hf
          cases h
          exact .short hl hf
        · rename_i hf
          cases h
          exact .receive hl hf
    · cases h
  | readError =>
    simp only [loopStep] at h
    split at h <;> cases h
    exact .readError ‹_›
  | dispatch =>
    simp only [loopStep] at h
    split at h <;> cases h
    exact .dispatch ‹_›
  | queue =>
    simp only [loopStep] at h
    split at h
    · rename_i hl
      split at h <;> cases h
      exact .queue hl ‹_›
    · cases h
  | drop =>
    simp only [loopStep] at h
    split at h
    · rename_i hl
      split at h <;> cases h
      exact .drop hl ‹_›
    · cases h
  | full =>
    simp only [loopStep] at h
    split at h
    · rename_i hl
      split at h
      · rename_i hp
        cases h
        exact .full hl hp.1 hp.2
      · cases h
    · cases h
  | next =>
    simp only [loopStep] at h
    split at h
    · rename_i hl
      split at h
      · rename_i hm
        cases h
        exact .gone hl hm
      · rename_i hm
        cases h
        exact .overflow hl hm
    · rename_i hl
      split at h
      · cases h
      · rename_i hj
        split at h
        · rename_i hx
          cases h
          exact .closed hl hj hx
        · rename_i hx
          cases h
          exact .closes hl hj hx
    · rename_i hl
      cases h
      exact .deletes hl
    · cases h
  | send ok =>
    simp only [loopStep] at h
    split at h
    · rename_i hl
      obtain ⟨u, hu, rfl⟩ := Option.map_eq_some_iff.mp h
      exact .send hl hu
    · cases h
  | scanBegin =>
    simp only [loopStep] at h
    split at h <;> cases h
    exact .scanBegin ‹_›
  | visit id =>
    simp only [loopStep] at h
    split at h
    · rename_i hl
      obtain ⟨j, hm, rfl⟩ := Option.map_eq_some_iff.mp h
      exact .visit hl hm
    · cases h
  | scanEnd =>
    simp only [loopStep] at h
    split at h
    · rename_i hp
      cases h
      exact .scanEnd hp.1 hp.2
    · cases h
  | reconnect =>
    simp only [loopStep] at h
    split at h
    · rename_i hp
      cases h
      exact .reconnect hp.1 hp.2
    · cases h

end Moves

/-! ## What a step can do to the sessions -/

/-- The open goroutine has returned. -/
def OpenPc.final (pc : OpenPc) : Bool := pc = .connected || pc = .returned

/-- The session is not in the map yet. -/
def OpenPc.before (pc : OpenPc) : Bool := pc = .spawned || pc = .checked || pc = .loaded

/-- The session cannot have its connection yet. -/
def OpenPc.early : OpenPc → Bool
  | .connSet | .sendConnected | .abortClose | .abortDelete | .connected | .returned => false
  | _ => true

/-- What holds of a session and its open goroutine alone. -/
structure Sound (x : Session) : Prop where
  before : x.opener.before = true → x.stored = false
  unstored : x.stored = false →
    (x.opener.before = true ∨ x.opener = .returned) ∧ x.target ≠ .opened
  early : x.opener.early = true → x.conn = false ∧ x.stage ≠ .connTaken true
  conn : x.conn = true → x.stage = .opened ∨ x.stage = .doneClosed
  target : x.target = .opened → x.opener = .dialed ∨ x.opener = .connecting ∨ x.conn = true ∨
    x.stage = .connTaken true
  refused : x.opener = .refused → isDone x = true
  aborted : x.opener = .abortDelete → x.stage = .closed

variable {s t : State} {e : Event} {x : Session} {i : Nat}

@[simp] theorem closeStep_id (x : Session) : (closeStep x).id = x.id := by
  unfold closeStep; split <;> rfl
@[simp] theorem closeStep_link (x : Session) : (closeStep x).link = x.link := by
  unfold closeStep; split <;> rfl
@[simp] theorem closeStep_stored (x : Session) : (closeStep x).stored = x.stored := by
  unfold closeStep; split <;> rfl
@[simp] theorem closeStep_opener (x : Session) : (closeStep x).opener = x.opener := by
  unfold closeStep; split <;> rfl

theorem closeStep_target (h : (closeStep x).target = .opened) : x.target = .opened := by
  unfold closeStep at h
  split at h
  · exact h
  · exact h
  · dsimp only at h
    split at h
    · cases h
    · exact h
  · exact h

theorem isDone_closeStep (h : isDone x = true) : isDone (closeStep x) = true := by
  unfold closeStep
  split <;> simp_all [isDone]

theorem Sound.closeStep (hx : Sound x) : Sound (closeStep x) := by
  have htarget : ∀ h : (WorkerProcess.closeStep x).target = .opened, x.target = .opened :=
    closeStep_target
  obtain ⟨hbefore, hunstored, hearly, hconn, ht, hrefused, haborted⟩ := hx
  refine ⟨?_, ?_, ?_, ?_, ?_, ?_, ?_⟩
  · simpa using hbefore
  · intro h
    obtain ⟨hpc, hopen⟩ := hunstored (by simpa using h)
    exact ⟨by simpa using hpc, fun hy => hopen (htarget hy)⟩
  · intro h
    have h' := hearly (by simpa using h)
    unfold WorkerProcess.closeStep
    split <;> simp_all
  · unfold WorkerProcess.closeStep
    split <;> simp_all
  · intro h
    have h' := ht (htarget h)
    unfold WorkerProcess.closeStep at h ⊢
    split
    case h_3 had hstage =>
      cases had <;> simp_all
    all_goals simp_all
  · intro h
    exact isDone_closeStep (hrefused (by simpa using h))
  · intro h
    have h' := haborted (by simpa using h)
    unfold WorkerProcess.closeStep
    split <;> simp_all

/-- The open goroutine has deleted its session after a failed dial. -/
def OpenPc.deleted (pc : OpenPc) : Bool := pc = .failed || pc = .sendClose

/-- The next step of the open goroutine is `sessions.Delete`. -/
def OpenPc.deletes (pc : OpenPc) : Bool := pc = .dialFailed || pc = .refused || pc = .abortDelete

/-- The id this step deletes from the map. -/
def deletes (s : State) : Event → Option SessionId
  | .opener i _ => (s.opens[i]?).bind fun x => if x.opener.deletes then some x.id else none
  | .writer i .closeSession =>
    if (s.streams i).writer = .delete then (s.opens[i]?).map Session.id else none
  | .reader i .next =>
    if (s.streams i).reader = .delete then (s.opens[i]?).map Session.id else none
  | .loop .next =>
    match s.loop with
    | .deleting _ id _ => some id
    | _ => none
  | _ => none

/-- Everything one step of an open goroutine does to what is shared. -/
inductive OpenEffect (s : State) (i : Nat) (x : Session) (choice : Bool) : State → Prop where
  | run {y : Session} {ls : Nat → Link} {ss : Nat → Streams} (hy : Sound y)
      (hid : y.id = x.id) (hlink : y.link = x.link) (hstored : y.stored = x.stored)
      (hstage : y.stage = x.stage) (hrun : y.opener.final = false)
      (hdel : y.opener.deleted = true → x.opener.deleted = true) :
      OpenEffect s i x choice { s.set i y with links := ls, streams := ss }
  | store (hnone : s.sessions x.id = none)
      (hy : Sound { x with opener := .stored, stored := true }) :
      OpenEffect s i x choice { s.set i { x with opener := .stored, stored := true } with
        sessions := Function.update s.sessions x.id (some i) }
  | fail (hx : x.opener.deletes = true) (hy : Sound { x with opener := .failed }) :
      OpenEffect s i x choice ((s.delete x.id).goto i x .failed)
  | close : OpenEffect s i x choice (s.close i)
  | leave (hx : x.stored = false) (hy : Sound { x with opener := .returned }) :
      OpenEffect s i x choice (s.goto i x .returned)
  | unopened {ls : Nat → Link} (hx : x.opener = .sendClose ∨ x.opener = .failed ∧ s.cancelled = true)
      (hdel : x.opener.deleted = true) (htarget : x.target ≠ .opened)
      (hy : Sound { x with opener := .returned }) :
      OpenEffect s i x choice { s.goto i x .returned with links := ls }
  | abandon (hx : x.opener.deletes = true) (hdone : isDone x = true) (htarget : x.target ≠ .opened)
      (hy : Sound { x with opener := .returned }) :
      OpenEffect s i x choice ((s.delete x.id).goto i x .returned)
  | connected {ls : Nat → Link} (hx : x.opener = .sendConnected) (hchoice : choice = true)
      (hy : Sound { x with opener := .connected }) :
      OpenEffect s i x choice { s.goto i x .connected with links := ls }

theorem sendPacket_some {n : Nat} {f : Frame SessionId} {ok : Bool}
    (h : s.sendPacket n f ok = some t) : ∃ ls, t = { s with links := ls } := by
  simp only [State.sendPacket] at h
  split at h
  · split at h <;> cases h
    exact ⟨_, rfl⟩
  · split at h <;> cases h
    exact ⟨s.links, rfl⟩

/-- A connection is open early only in the hands of the open goroutine. -/
theorem Sound.early_target (hx : Sound x) (h : x.opener.early = true) (hd : x.opener ≠ .dialed)
    (hc : x.opener ≠ .connecting) : x.target ≠ .opened := by
  intro ht
  obtain ⟨hconn, hstage⟩ := hx.early h
  rcases hx.target ht with h' | h' | h' | h'
  · exact hd h'
  · exact hc h'
  · rw [hconn] at h'
    cases h'
  · exact hstage h'

/-- A closed session keeps no connection. -/
theorem Sound.closed_target (hx : Sound x) (h : x.stage = .closed) (hd : x.opener ≠ .dialed)
    (hc : x.opener ≠ .connecting) : x.target ≠ .opened := by
  intro ht
  rcases hx.target ht with h' | h' | h' | h'
  · exact hd h'
  · exact hc h'
  · rcases hx.conn h' with h' | h' <;> rw [h] at h' <;> cases h'
  · rw [h] at h'
    cases h'

/-- A move of the open goroutine while no connection is open and none is set. -/
theorem Sound.move {pc : OpenPc} (hx : Sound x) (hearly : x.opener.early = true)
    (ht : x.target ≠ .opened) (hstored : x.stored = false → pc.before = true ∨ pc = .returned)
    (hbefore : pc.before = true → x.stored = false) (hrefused : pc ≠ .refused)
    (haborted : pc ≠ .abortDelete) : Sound { x with opener := pc } :=
  ⟨hbefore, fun h => ⟨hstored h, ht⟩, fun _ => hx.early hearly, hx.conn, fun h => absurd h ht,
    fun h => absurd h hrefused, fun h => absurd h haborted⟩

theorem Sound.stored (hx : Sound x) (hb : x.opener.before = false) (hr : x.opener ≠ .returned) :
    x.stored = true := by
  by_contra hs
  rcases (hx.unstored (by simpa using hs)).1 with h | h
  · rw [hb] at h
    cases h
  · exact hr h

theorem openStep_effect {choice : Bool} (hx : Sound x) (h : openStep s i x choice = some t) :
    OpenEffect s i x choice t := by
  cases hpc : x.opener with
  | spawned | checked =>
    have ht := hx.early_target (by rw [hpc]; rfl) (by simp [hpc]) (by simp [hpc])
    have hstored := hx.before (by rw [hpc]; rfl)
    have hmove : ∀ pc, pc.before = true ∨ pc = .returned → pc ≠ .refused → pc ≠ .abortDelete →
        Sound { x with opener := pc } :=
      fun pc hp => hx.move (by rw [hpc]; rfl) ht (fun _ => hp) (fun _ => hstored)
    simp only [openStep, hpc] at h
    cases h
    split
    · exact .leave hstored (hmove _ (Or.inr rfl) nofun nofun)
    · exact .run (hmove _ (Or.inl rfl) nofun nofun) rfl rfl rfl rfl rfl nofun
  | loaded =>
    have ht := hx.early_target (by rw [hpc]; rfl) (by simp [hpc]) (by simp [hpc])
    have hstored := hx.before (by rw [hpc]; rfl)
    simp only [openStep, hpc] at h
    split at h
    · cases h
      exact .leave hstored
        (hx.move (by rw [hpc]; rfl) ht (fun _ => Or.inr rfl) nofun nofun nofun)
    · rename_i hnone
      cases h
      refine .store (by simpa using hnone) ?_
      exact ⟨nofun, nofun, fun _ => hx.early (by rw [hpc]; rfl), hx.conn, fun h => absurd h ht,
        nofun, nofun⟩
  | stored =>
    have ht := hx.early_target (by rw [hpc]; rfl) (by simp [hpc]) (by simp [hpc])
    have hstored := hx.stored (by rw [hpc]; rfl) (by simp [hpc])
    have hmove : ∀ pc, pc.before = false → pc ≠ .refused → pc ≠ .abortDelete →
        Sound { x with opener := pc } :=
      fun pc hb => hx.move (by rw [hpc]; rfl) ht (by simp [hstored]) (by simp [hb])
    simp only [openStep, hpc] at h
    cases h
    split
    · exact .run (hmove _ rfl nofun nofun) rfl rfl rfl rfl rfl nofun
    · exact .run (hmove _ rfl nofun nofun) rfl rfl rfl rfl rfl nofun
  | dialing =>
    have ht := hx.early_target (by rw [hpc]; rfl) (by simp [hpc]) (by simp [hpc])
    have hstored := hx.stored (by rw [hpc]; rfl) (by simp [hpc])
    simp only [openStep, hpc] at h
    split at h
    · cases h
      refine .run ?_ rfl rfl rfl rfl rfl nofun
      exact ⟨nofun, by simp [hstored], fun _ => hx.early (by rw [hpc]; rfl), hx.conn,
        fun _ => Or.inl rfl, nofun, nofun⟩
    · cases h
      exact .run (hx.move (by rw [hpc]; rfl) ht (by simp [hstored]) nofun nofun nofun)
        rfl rfl rfl rfl rfl nofun
  | dialed =>
    have hstored := hx.stored (by rw [hpc]; rfl) (by simp [hpc])
    have hearly := hx.early (by rw [hpc]; rfl)
    simp only [openStep, hpc] at h
    split at h
    · cases h
      exact .run ⟨nofun, by simp [hstored], nofun, hx.conn, nofun, nofun, nofun⟩
        rfl rfl rfl rfl rfl nofun
    · cases h
      exact .run ⟨nofun, by simp [hstored], fun _ => hearly, hx.conn, fun _ => Or.inr (Or.inl rfl),
        nofun, nofun⟩ rfl rfl rfl rfl rfl nofun
  | connecting =>
    have hstored := hx.stored (by rw [hpc]; rfl) (by simp [hpc])
    have hearly := hx.early (by rw [hpc]; rfl)
    simp only [openStep, hpc] at h
    split at h
    · rename_i hdone
      cases h
      exact .run ⟨nofun, by simp [hstored], fun _ => hearly, hx.conn, nofun, fun _ => hdone, nofun⟩
        rfl rfl rfl rfl rfl nofun
    · rename_i hdone
      cases h
      have hopen : x.stage = .opened := by simpa [isDone] using hdone
      exact .run ⟨nofun, by simp [hstored], nofun, fun _ => Or.inl hopen,
        fun _ => Or.inr (Or.inr (Or.inl rfl)), nofun, nofun⟩ rfl rfl rfl rfl rfl nofun
  | connSet =>
    have hstored := hx.stored (by rw [hpc]; rfl) (by simp [hpc])
    have ht : x.target = .opened → x.conn = true ∨ x.stage = .connTaken true := by
      intro h'
      simpa [hpc] using hx.target h'
    simp only [openStep, hpc] at h
    cases h
    exact .run ⟨nofun, by simp [hstored], nofun, hx.conn, fun h' => Or.inr (Or.inr (ht h')),
      nofun, nofun⟩ rfl rfl rfl rfl rfl nofun
  | sendConnected =>
    have hstored := hx.stored (by rw [hpc]; rfl) (by simp [hpc])
    have ht : x.target = .opened → x.conn = true ∨ x.stage = .connTaken true := by
      intro h'
      simpa [hpc] using hx.target h'
    have hmove : ∀ pc, pc.before = false → pc.early = false → pc ≠ .refused → pc ≠ .abortDelete →
        Sound { x with opener := pc } := fun pc hb he hr ha =>
      ⟨by simp [hb], by simp [hstored], by simp [he], hx.conn, fun h' => Or.inr (Or.inr (ht h')),
        fun h' => absurd h' hr, fun h' => absurd h' ha⟩
    simp only [openStep, hpc] at h
    obtain ⟨u, hu, rfl⟩ := Option.map_eq_some_iff.mp h
    obtain ⟨ls, rfl⟩ := sendPacket_some hu
    cases choice with
    | false => exact .run (hmove .abortClose rfl rfl nofun nofun) rfl rfl rfl rfl rfl nofun
    | true => exact .connected hpc rfl (hmove .connected rfl rfl nofun nofun)
  | dialFailed =>
    have ht := hx.early_target (by rw [hpc]; rfl) (by simp [hpc]) (by simp [hpc])
    have hstored := hx.stored (by rw [hpc]; rfl) (by simp [hpc])
    simp only [openStep, hpc] at h
    cases h
    exact .fail (by rw [hpc]; rfl) (hx.move (by rw [hpc]; rfl) ht (by simp [hstored]) nofun nofun nofun)
  | failed =>
    have ht := hx.early_target (by rw [hpc]; rfl) (by simp [hpc]) (by simp [hpc])
    have hstored := hx.stored (by rw [hpc]; rfl) (by simp [hpc])
    simp only [openStep, hpc] at h
    cases h
    split
    · rename_i hcancelled
      exact .unopened (Or.inr ⟨hpc, hcancelled⟩) (by rw [hpc]; rfl) ht
        (hx.move (by rw [hpc]; rfl) ht (by simp [hstored]) nofun nofun nofun)
    · exact .run (hx.move (by rw [hpc]; rfl) ht (by simp [hstored]) nofun nofun nofun)
        rfl rfl rfl rfl rfl (fun _ => by rw [hpc]; rfl)
  | sendClose =>
    have ht := hx.early_target (by rw [hpc]; rfl) (by simp [hpc]) (by simp [hpc])
    have hstored := hx.stored (by rw [hpc]; rfl) (by simp [hpc])
    simp only [openStep, hpc] at h
    obtain ⟨u, hu, rfl⟩ := Option.map_eq_some_iff.mp h
    obtain ⟨ls, rfl⟩ := sendPacket_some hu
    exact .unopened (Or.inl hpc) (by rw [hpc]; rfl) ht
      (hx.move (by rw [hpc]; rfl) ht (by simp [hstored]) nofun nofun nofun)
  | refused =>
    have ht := hx.early_target (by rw [hpc]; rfl) (by simp [hpc]) (by simp [hpc])
    have hstored := hx.stored (by rw [hpc]; rfl) (by simp [hpc])
    simp only [openStep, hpc] at h
    cases h
    exact .abandon (by rw [hpc]; rfl) (hx.refused hpc) ht
      (hx.move (by rw [hpc]; rfl) ht (by simp [hstored]) nofun nofun nofun)
  | abortClose =>
    have hstored := hx.stored (by rw [hpc]; rfl) (by simp [hpc])
    have ht : x.target = .opened → x.conn = true ∨ x.stage = .connTaken true := by
      intro h'
      simpa [hpc] using hx.target h'
    simp only [openStep, hpc] at h
    split at h
    · rename_i hclosed
      cases h
      exact .run ⟨nofun, by simp [hstored], nofun, hx.conn, fun h' => Or.inr (Or.inr (ht h')),
        nofun, fun _ => hclosed⟩ rfl rfl rfl rfl rfl nofun
    · cases h
      exact .close
  | abortDelete =>
    have hclosed := hx.aborted hpc
    have ht := hx.closed_target hclosed (by simp [hpc]) (by simp [hpc])
    simp only [openStep, hpc] at h
    cases h
    refine .abandon (by rw [hpc]; rfl) (by simp [isDone, hclosed]) ht ?_
    exact ⟨nofun, fun _ => ⟨Or.inr rfl, ht⟩, nofun, hx.conn, fun h' => absurd h' ht, nofun, nofun⟩
  | connected | returned =>
    simp only [openStep, hpc] at h
    cases h

/-- What a goroutine that is neither an open goroutine nor the loop does to what is shared. -/
inductive AsideEffect (s : State) (e : Event) : State → Prop where
  | local {c : Bool} {ls : Nat → Link} {ss : Nat → Streams} (hc : s.cancelled = true → c = true) :
      AsideEffect s e { s with cancelled := c, links := ls, streams := ss }
  | close (i : Nat) : AsideEffect s e (s.close i)
  | delete {id : SessionId} {ss : Nat → Streams} (hid : deletes s e = some id) :
      AsideEffect s e { s.delete id with streams := ss }

theorem writeStep_effect {a : WriterEvent} (hi : s.opens[i]? = some x)
    (h : writeStep s i x (s.streams i) a = some t) : AsideEffect s (.writer i a) t := by
  cases writeStep_move h with
  | closes => exact .close _
  | deletes hw => exact .delete (by rw [deletes, if_pos hw, hi]; rfl)
  | _ => exact .local id

theorem readStep_effect {a : ReaderEvent} (hi : s.opens[i]? = some x)
    (h : readStep s i x (s.streams i) a = some t) : AsideEffect s (.reader i a) t := by
  cases readStep_move h with
  | data _ hu | closeSent _ hu =>
    obtain ⟨ls, rfl⟩ := sendPacket_some hu
    exact .local id
  | closes => exact .close _
  | deletes hr => exact .delete (by rw [deletes, if_pos hr, hi]; rfl)
  | _ => exact .local id

/-- The process, one kind of goroutine at a time. -/
theorem step_effect (h : step s e = some t) :
    AsideEffect s e t ∨
      (∃ i x choice, e = .opener i choice ∧ s.opens[i]? = some x ∧
        openStep s i x choice = some t) ∨
      ∃ a, e = .loop a ∧ loopStep s a = some t := by
  cases e with
  | cancel =>
    cases h
    exact Or.inl (.local fun _ => rfl)
  | watch =>
    simp only [step] at h
    split at h <;> cases h
    exact Or.inl (.local id)
  | brokerWrite n ok =>
    simp only [step] at h
    split at h
    · obtain ⟨r, -, rfl⟩ := Option.map_eq_some_iff.mp h
      exact Or.inl (.local id)
    · cases h
  | brokerPing n | brokerStop n =>
    simp only [step] at h
    split at h <;> cases h
    exact Or.inl (.local id)
  | opener i choice =>
    simp only [step] at h
    split at h
    · cases h
    · rename_i x hi
      exact Or.inr (Or.inl ⟨i, x, choice, rfl, hi, h⟩)
  | writer i a =>
    simp only [step] at h
    split at h
    · cases h
    · rename_i x hi
      exact Or.inl (writeStep_effect hi h)
  | reader i a =>
    simp only [step] at h
    split at h
    · cases h
    · rename_i x hi
      exact Or.inl (readStep_effect hi h)
  | loop a => exact Or.inr (Or.inr ⟨a, rfl, h⟩)

/-! ## Every run -/

theorem get_set {y : Session} (hi : s.opens[i]? = some x) (j : Nat) :
    (s.set i y).opens[j]? = if j = i then some y else s.opens[j]? := by
  have hlen : i < s.opens.length := (List.getElem?_eq_some_iff.mp hi).1
  by_cases hj : j = i
  · subst hj
    simp [State.set, hlen]
  · rw [if_neg hj]
    exact List.getElem?_set_ne (fun h => hj h.symm)

/-- Closing is a change of one session, or of none. -/
theorem close_eq_set (i : Nat) :
    s.close i = s ∨ ∃ x, s.opens[i]? = some x ∧ s.close i = s.set i (closeStep x) := by
  cases hi : s.opens[i]? with
  | none =>
    left
    have hlen := List.getElem?_eq_none_iff.mp hi
    simp only [State.close, List.modify_eq_self hlen]
  | some x =>
    right
    refine ⟨x, rfl, ?_⟩
    simp only [State.close, State.set]
    congr 1
    apply List.ext_getElem?
    intro j
    have hlen : i < s.opens.length := (List.getElem?_eq_some_iff.mp hi).1
    rw [List.getElem?_modify]
    by_cases hj : i = j
    · subst hj
      rw [List.getElem?_set_self hlen, hi]
      simp
    · rw [List.getElem?_set_ne hj]
      simp [hj]

/-- What holds in every state of the process. -/
structure Inv (s : State) : Prop where
  sound : ∀ (i : Nat) x, s.opens[i]? = some x → Sound x
  mapped : ∀ id i, s.sessions id = some i → ∃ x, s.opens[i]? = some x ∧ x.id = id ∧ x.stored = true
  unmapped : ∀ (i : Nat) x, s.opens[i]? = some x → x.opener.deleted = true → s.sessions x.id ≠ some i
  closing : ∀ i id who, s.loop = .closing i id who → ∃ x, s.opens[i]? = some x ∧ x.id = id
  deleting : ∀ i id who, s.loop = .deleting i id who →
    ∃ x, s.opens[i]? = some x ∧ x.id = id ∧ x.stage = .closed

theorem inv_start : Inv start := by
  refine ⟨?_, nofun, ?_, nofun, nofun⟩
  · intro i x h
    cases h
  · intro i x h
    cases h

/-- A change of one session that keeps its place in the map. -/
theorem Inv.set {y : Session} (hs : Inv s) (hi : s.opens[i]? = some x) (hy : Sound y)
    (hid : y.id = x.id) (hstored : x.stored = true → y.stored = true)
    (hclosed : x.stage = .closed → y.stage = .closed)
    (hdel : y.opener.deleted = true → s.sessions x.id ≠ some i) : Inv (s.set i y) := by
  have hget := fun j => @get_set s x i y hi j
  have hkeep : ∀ {j : Nat} {id : SessionId} {P : Session → Prop}, (P x → P y) →
      (∃ z, s.opens[j]? = some z ∧ z.id = id ∧ P z) →
      ∃ z, (s.set i y).opens[j]? = some z ∧ z.id = id ∧ P z := by
    rintro j id P hP ⟨z, hz, hzid, hPz⟩
    by_cases hj : j = i
    · subst hj
      rw [hi] at hz
      cases hz
      exact ⟨y, by rw [hget, if_pos rfl], by rw [hid, hzid], hP hPz⟩
    · exact ⟨z, by rw [hget, if_neg hj, hz], hzid, hPz⟩
  refine ⟨fun j z hz => ?_, fun id j hj => hkeep hstored (hs.mapped id j hj), fun j z hz hd => ?_,
    fun j id who hl => ?_, fun j id who hl => hkeep hclosed (hs.deleting j id who hl)⟩
  · rw [hget] at hz
    split at hz
    · cases hz
      exact hy
    · exact hs.sound j z hz
  · rw [hget] at hz
    split at hz
    · rename_i hj
      cases hz
      rw [hid, hj]
      exact hdel hd
    · exact hs.unmapped j z hz hd
  · obtain ⟨z, hz, hzid⟩ := hs.closing j id who hl
    obtain ⟨z', hz', hzid', -⟩ := @hkeep j id (fun _ => True) (fun _ => trivial) ⟨z, hz, hzid, trivial⟩
    exact ⟨z', hz', hzid'⟩

theorem Inv.close (hs : Inv s) (i : Nat) : Inv (s.close i) := by
  rcases @close_eq_set s i with h | ⟨x, hi, h⟩
  · rw [h]
    exact hs
  · rw [h]
    have hx := hs.sound i x hi
    refine hs.set hi hx.closeStep (closeStep_id x) (by simp) (fun hc => ?_) (fun hd => ?_)
    · unfold closeStep
      rw [hc]
      exact hc
    · exact hs.unmapped i x hi (by simpa using hd)

theorem delete_some {id id' : SessionId} (h : (s.delete id).sessions id' = some i) :
    id' ≠ id ∧ s.sessions id' = some i := by
  simp only [State.delete] at h
  by_cases hid : id' = id
  · rw [hid, Function.update_self] at h
    cases h
  · rw [Function.update_of_ne hid] at h
    exact ⟨hid, h⟩

theorem Inv.delete (hs : Inv s) (id : SessionId) : Inv (s.delete id) :=
  ⟨hs.sound, fun id' i h => hs.mapped id' i (delete_some h).2,
    fun i x hi hd h => hs.unmapped i x hi hd (delete_some h).2, hs.closing, hs.deleting⟩

/-- The fields an invariant does not look at may change. -/
theorem Inv.local (hs : Inv s) (c : Bool) (ls : Nat → Link) (ss : Nat → Streams) :
    Inv { s with cancelled := c, links := ls, streams := ss } :=
  ⟨hs.sound, hs.mapped, hs.unmapped, hs.closing, hs.deleting⟩

theorem inv_aside (hs : Inv s) (h : AsideEffect s e t) : Inv t := by
  cases h with
  | «local» hc => exact hs.local _ _ _
  | close i => exact hs.close i
  | delete hid => exact (hs.delete _).local _ _ _

theorem inv_opener {choice : Bool} (hs : Inv s) (hi : s.opens[i]? = some x)
    (h : OpenEffect s i x choice t) : Inv t := by
  cases h with
  | run hy hid hlink hstored hstage hrun hdel =>
    refine (hs.set hi hy hid (by rw [hstored]; exact fun h => h) (by rw [hstage]; exact fun h => h)
      fun hd => ?_).local _ _ _
    exact hs.unmapped i x hi (hdel hd)
  | store hnone hy =>
    have hset := hs.set hi hy rfl (fun _ => rfl) (fun h => h) nofun
    refine ⟨hset.sound, fun id j hj => ?_, fun j z hz hd hm => ?_, hset.closing, hset.deleting⟩
    · by_cases hid : id = x.id
      · subst hid
        simp only [Function.update_self] at hj
        cases hj
        exact ⟨{ x with opener := .stored, stored := true }, (get_set hi i).trans (if_pos rfl),
          rfl, rfl⟩
      · simp only [Function.update_of_ne hid] at hj
        exact hset.mapped id j hj
    · by_cases hid : z.id = x.id
      · simp only [hid, Function.update_self] at hm
        cases hm
        rw [get_set hi, if_pos rfl] at hz
        cases hz
        cases hd
      · simp only [Function.update_of_ne hid] at hm
        exact hset.unmapped j z hz hd hm
  | fail hx hy =>
    refine (hs.delete x.id).set hi hy rfl (fun h => h) (fun h => h) fun _ hm => ?_
    exact (delete_some hm).1 rfl
  | close => exact hs.close i
  | leave hx hy => exact hs.set hi hy rfl (fun h => h) (fun h => h) nofun
  | unopened hx hdel htarget hy =>
    exact (hs.set hi hy rfl (fun h => h) (fun h => h) nofun).local _ _ _
  | abandon hx hdone htarget hy => exact (hs.delete x.id).set hi hy rfl (fun h => h) (fun h => h) nofun
  | connected hx hchoice hy =>
    exact (hs.set hi hy rfl (fun h => h) (fun h => h) nofun).local _ _ _

/-- A new session at the end of the list moves none of the others. -/
theorem get_append {y z : Session} {j : Nat} (h : (s.opens ++ [y])[j]? = some z) :
    s.opens[j]? = some z ∨ j = s.opens.length ∧ z = y := by
  by_cases hj : j < s.opens.length
  · rw [List.getElem?_append_left hj] at h
    exact Or.inl h
  · rw [List.getElem?_append_right (by omega)] at h
    obtain ⟨hlen, hz⟩ := List.getElem?_eq_some_iff.mp h
    simp only [List.length_singleton] at hlen
    have hj' : j = s.opens.length := by omega
    subst hj'
    simp at hz
    exact Or.inr ⟨rfl, hz.symm⟩

theorem get_append_left {y z : Session} {j : Nat} (h : s.opens[j]? = some z) :
    (s.opens ++ [y])[j]? = some z := by
  rw [List.getElem?_append_left (List.getElem?_eq_some_iff.mp h).1]
  exact h

theorem sound_newSession (f : Frame SessionId) : Sound (newSession s f) :=
  ⟨fun _ => rfl, fun _ => ⟨Or.inl rfl, nofun⟩, fun _ => ⟨rfl, nofun⟩, nofun, nofun, nofun, nofun⟩

/-- The scan at the end of the connection has begun. -/
def LoopPc.scanned : LoopPc → Bool
  | .closing _ _ .scan | .deleting _ _ .scan | .scanning | .returned => true
  | _ => false

/-- The loop is inside `closeSession` or the function given to `sessions.Range`. -/
def LoopPc.holds : LoopPc → Option Nat
  | .closing i _ _ | .deleting i _ _ => some i
  | _ => none

/-- Everything the loop does to what is shared. -/
inductive LoopEffect (s : State) : State → Prop where
  | idle {pc : LoopPc} {ls : Nat → Link} {ss : Nat → Streams}
      (hs : ∀ f, s.loop = .dispatch f → f.cmd ≠ .close)
      (hfrom : s.loop.scanned = false ∧ s.loop.holds = none)
      (hto : pc.scanned = false ∧ pc.holds = none)
      (hnext : (∀ f, pc ≠ .dispatch f) ∧ ∀ id, pc ≠ .sendClose id) :
      LoopEffect s { s with loop := pc, links := ls, streams := ss }
  | receive {f : Frame SessionId} (hs : s.loop = .reading) :
      LoopEffect s { s with
        loop := .dispatch f
        lastFrame := Function.update s.lastFrame f.id (some f.cmd) }
  | spawn {f : Frame SessionId} (hs : s.loop = .dispatch f) (hf : f.cmd ≠ .close) :
      LoopEffect s { s with loop := .reading, opens := s.opens ++ [newSession s f] }
  | missing {f : Frame SessionId} (hs : s.loop = .dispatch f) (hf : f.cmd = .close)
      (hnone : s.sessions f.id = none) : LoopEffect s { s with loop := .reading }
  | found {f : Frame SessionId} {i : Nat} (hs : s.loop = .dispatch f) (hf : f.cmd = .close)
      (hi : s.sessions f.id = some i) : LoopEffect s { s with loop := .closing i f.id .frame }
  | overflow {id : SessionId} {i : Nat} (hs : s.loop = .overflow id) (hi : s.sessions id = some i) :
      LoopEffect s { s with loop := .closing i id .overflow }
  | close (i : Nat) : LoopEffect s (s.close i)
  | closed {i : Nat} {id : SessionId} {who : Caller} {x : Session} (hs : s.loop = .closing i id who)
      (hi : s.opens[i]? = some x) (hx : x.stage = .closed) :
      LoopEffect s { s with loop := .deleting i id who }
  | deleted {i : Nat} {id : SessionId} {who : Caller} (hs : s.loop = .deleting i id who) :
      LoopEffect s { s.delete id with loop := who.after id }
  | scanBegin (hs : s.loop = .leaving) :
      LoopEffect s { s with loop := .scanning, owed := fun id => (s.sessions id).isSome }
  | visit {id : SessionId} {i : Nat} (hs : s.loop = .scanning) (hi : s.sessions id = some i) :
      LoopEffect s { s with loop := .closing i id .scan, owed := Function.update s.owed id false }
  | scanEnd (hs : s.loop = .scanning) (howed : ∀ x ∈ s.opens, s.owed x.id = false) :
      LoopEffect s { s with loop := .returned }
  | reconnect (hs : s.loop = .returned) :
      LoopEffect s { s with loop := .reading, link := s.link + 1 }

theorem dispatch_effect {f : Frame SessionId} (hs : s.loop = .dispatch f) :
    LoopEffect s (dispatch s f) := by
  have hidle : f.cmd ≠ .close → ∀ g, s.loop = .dispatch g → g.cmd ≠ .close := by
    intro hf g hg
    rw [hs] at hg
    cases hg
    exact hf
  have hfrom : s.loop.scanned = false ∧ s.loop.holds = none := by
    rw [hs]
    exact ⟨rfl, rfl⟩
  unfold dispatch
  split
  case h_5 hf =>
    split
    · exact .missing hs hf ‹_›
    · exact .found hs hf ‹_›
  case h_1 hf | h_2 hf =>
    split
    · exact .idle (hidle (by rw [hf]; exact nofun)) hfrom ⟨rfl, rfl⟩ ⟨nofun, nofun⟩
    · exact .spawn hs (by rw [hf]; exact nofun)
  case h_3 hf | h_4 hf =>
    split
    · exact .idle (hidle (by rw [hf]; exact nofun)) hfrom ⟨rfl, rfl⟩ ⟨nofun, nofun⟩
    · exact .idle (hidle (by rw [hf]; exact nofun)) hfrom ⟨rfl, rfl⟩ ⟨nofun, nofun⟩
  case h_6 hf => exact .idle (hidle hf) hfrom ⟨rfl, rfl⟩ ⟨nofun, nofun⟩

theorem loopStep_effect {a : LoopEvent} (h : loopStep s a = some t) : LoopEffect s t := by
  -- a move between two positions with neither a close frame nor a session in hand
  have hidle : ∀ {pc ls ss}, (∀ f, s.loop ≠ .dispatch f) → s.loop.scanned = false →
      s.loop.holds = none → pc.scanned = false → pc.holds = none →
      (∀ f, pc ≠ .dispatch f) ∧ (∀ id, pc ≠ .sendClose id) →
      LoopEffect s { s with loop := pc, links := ls, streams := ss } :=
    fun hd h1 h2 h3 h4 => .idle (fun f hf => absurd hf (hd f)) ⟨h1, h2⟩ ⟨h3, h4⟩
  cases loopStep_move h with
  | short hl =>
    have hstay := @hidle s.loop s.links s.streams (by simp [hl]) (by rw [hl]; rfl)
      (by rw [hl]; rfl) (by rw [hl]; rfl) (by rw [hl]; rfl) (by simp [hl])
    exact hstay
  | receive hl => exact .receive hl
  | stopped hl | readError hl | queue hl | drop hl | full hl | gone hl =>
    exact hidle (by simp [hl]) (by rw [hl]; rfl) (by rw [hl]; rfl) rfl rfl (by simp)
  | dispatch hl => exact dispatch_effect hl
  | overflow hl hm => exact .overflow hl hm
  | closes => exact .close _
  | closed hl hj hx => exact .closed hl hj hx
  | deletes hl => exact .deleted hl
  | send hl hu =>
    obtain ⟨ls, rfl⟩ := sendPacket_some hu
    exact hidle (by simp [hl]) (by rw [hl]; rfl) (by rw [hl]; rfl) rfl rfl (by simp)
  | scanBegin hl => exact .scanBegin hl
  | visit hl hm => exact .visit hl hm
  | scanEnd hl howed => exact .scanEnd hl (by simpa using howed)
  | reconnect hl => exact .reconnect hl

theorem inv_loop (hs : Inv s) (h : LoopEffect s t) : Inv t := by
  obtain ⟨hsound, hmapped, hunmapped, hclosing, hdeleting⟩ := hs
  have hfree : ∀ {pc : LoopPc}, pc.holds = none →
      (∀ i id who, pc ≠ .closing i id who) ∧ ∀ i id who, pc ≠ .deleting i id who := by
    intro pc hpc
    refine ⟨?_, ?_⟩ <;> rintro i id who rfl <;> cases hpc
  have hhold : ∀ {id i}, s.sessions id = some i → ∀ {i' id' who who'},
      LoopPc.closing i id who = .closing i' id' who' → ∃ x, s.opens[i']? = some x ∧ x.id = id' := by
    intro id i hm i' id' who who' heq
    cases heq
    obtain ⟨x, hx, hid, -⟩ := hmapped id i hm
    exact ⟨x, hx, hid⟩
  cases h with
  | idle hd hfrom hto hnext =>
    obtain ⟨hc, hd⟩ := hfree hto.2
    exact ⟨hsound, hmapped, hunmapped, fun i id who h => absurd h (hc i id who),
      fun i id who h => absurd h (hd i id who)⟩
  | receive hl => exact ⟨hsound, hmapped, hunmapped, nofun, nofun⟩
  | spawn hl hf =>
    refine ⟨fun i x hx => ?_, fun id i hm => ?_, fun i x hx hd hm => ?_, nofun, nofun⟩
    · rcases get_append hx with hx | ⟨-, rfl⟩
      · exact hsound i x hx
      · exact sound_newSession _
    · obtain ⟨x, hx, hid, hst⟩ := hmapped id i hm
      exact ⟨x, get_append_left hx, hid, hst⟩
    · rcases get_append hx with hx | ⟨-, rfl⟩
      · exact hunmapped i x hx hd hm
      · cases hd
  | missing hl hf hnone => exact ⟨hsound, hmapped, hunmapped, nofun, nofun⟩
  | found hl hf hm => exact ⟨hsound, hmapped, hunmapped, fun _ _ _ => hhold hm, nofun⟩
  | overflow hl hm => exact ⟨hsound, hmapped, hunmapped, fun _ _ _ => hhold hm, nofun⟩
  | close i => exact Inv.close ⟨hsound, hmapped, hunmapped, hclosing, hdeleting⟩ i
  | closed hl hi hx =>
    refine ⟨hsound, hmapped, hunmapped, nofun, fun i id who heq => ?_⟩
    cases heq
    obtain ⟨y, hy, hid⟩ := hclosing _ _ _ hl
    rw [hi] at hy
    cases hy
    exact ⟨_, hi, hid, hx⟩
  | @deleted _ id who hl =>
    obtain ⟨hc, hd⟩ := hfree (show (who.after id).holds = none by cases who <;> rfl)
    have hs := Inv.delete ⟨hsound, hmapped, hunmapped, hclosing, hdeleting⟩ id
    exact ⟨hs.sound, hs.mapped, hs.unmapped, fun i id' who' h => absurd h (hc i id' who'),
      fun i id' who' h => absurd h (hd i id' who')⟩
  | scanBegin hl => exact ⟨hsound, hmapped, hunmapped, nofun, nofun⟩
  | visit hl hm => exact ⟨hsound, hmapped, hunmapped, fun _ _ _ => hhold hm, nofun⟩
  | scanEnd hl howed => exact ⟨hsound, hmapped, hunmapped, nofun, nofun⟩
  | reconnect hl => exact ⟨hsound, hmapped, hunmapped, nofun, nofun⟩

theorem inv_step (hs : Inv s) (h : step s e = some t) : Inv t := by
  rcases step_effect h with h | ⟨i, x, choice, -, hi, h⟩ | ⟨a, -, h⟩
  · exact inv_aside hs h
  · exact inv_opener hs hi (openStep_effect (hs.sound i x hi) h)
  · exact inv_loop hs (loopStep_effect h)

end SplitProxy.WorkerProcess
