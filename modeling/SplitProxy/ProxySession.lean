import SplitProxy.Runs
import SplitProxy.Fifo
import SplitProxy.Wire

/-!
# One broker session inside the proxy

`BrokerSession` together with the three parties that touch it: the `readLoop`
of its connection, the `handleBroker` call that owns it with the goroutine
reading the client, and `BrokerConnection.close`. Every channel operation, map
operation and socket call is one event; which ready case a select takes is the
choice of event.
-/
namespace SplitProxy.ProxySession

/-- `make(chan []byte, 32)` in `openSession`. -/
def dataQueueSize : Nat := 32

/-- The buffer of the client-reading goroutine. -/
def clientBuffer : Nat := 32 * 1024

inductive SessionError where
  | queueFull
  | remoteClosed
  | remoteError (text : Payload)
  | linkClosed
  deriving DecidableEq, Repr

/-- Where `handleBroker` stands, from `openSession`'s send to its return. -/
inductive HandlerPc where
  | sendRequest
  | waitConnected
  | respond
  | select
  | write (msg rest : Payload)
  | closeCheck
  | closeSend
  | closeDelete (err : Option SessionError)
  | closeDone (err : Option SessionError)
  | returned
  deriving DecidableEq, Repr

inductive ClientPc where
  | notStarted
  | reading
  | sending (chunk : Payload)
  | finished
  deriving DecidableEq, Repr

/-- Where `readLoop` stands while it works on a frame of this session. -/
inductive LoopPc where
  | idle
  | handling (cmd : Command) (payload : Payload)
  | closing (err : SessionError)
  deriving DecidableEq, Repr

structure Session where
  /-- `c.sessions` maps the id to this session -/
  registered : Bool
  data : Fifo Payload
  /-- the one slot of `connected`; the inner `none` is a nil error -/
  connected : Option (Option SessionError)
  done : Bool
  handler : HandlerPc
  client : ClientPc
  loop : LoopPc
  /-- `BrokerConnection.close` has deleted the session and closes it next -/
  linkClosing : Bool
  /-- complete messages handed to `client.Write` and accepted -/
  written : List Payload
  /-- bytes of the current or failed message the client accepted -/
  unfinished : Payload
  fromClient : Payload
  /-- packets `readLoop` loaded the session for -/
  received : List Packet
  /-- packets this session put on the link -/
  emitted : List Packet

/-- The session as `openSession` stores it. -/
def stored : Session where
  registered := true
  data := .empty
  connected := none
  done := false
  handler := .sendRequest
  client := .notStarted
  loop := .idle
  linkClosing := false
  written := []
  unfinished := []
  fromClient := []
  received := []
  emitted := []

/-- The bytes `client.Write` has accepted. -/
def clientBytes (s : Session) : Payload := s.written.flatten ++ s.unfinished

/-- `BrokerSession.close`: the error is offered to `connected`, then `done` is closed, once. -/
def close (err : Option SessionError) (s : Session) : Session :=
  if s.done then s
  else { s with
    done := true
    connected := match err, s.connected with
      | some e, none => some (some e)
      | _, c => c }

inductive Event where
  -- openSession
  | requestSent
  | requestFailed
  -- waitConnected and onConnected
  | connectOk
  | connectFailed
  | connectClosed
  | responseOk
  | responseFailed
  -- the select loop of handleBroker
  | takeData
  | writeSome (n : Nat)
  | writeDone
  | writeFailed
  | selectDone
  | selectClientDone
  -- the deferred closeBrokerSession
  | closeChecked
  | closeSent (ok : Bool)
  | closeDelete
  | closeDone
  -- the client-reading goroutine
  | clientRead (chunk : Payload)
  | clientSent
  | clientSendFailed
  | clientEOF
  -- readLoop on a frame of this session
  | frame (cmd : Command) (payload : Payload)
  | signalConnected
  | queueData
  | dropData
  | overflow
  | remoteEnd
  | ignoreFrame
  | loopClose
  -- BrokerConnection.close
  | linkDelete
  | linkClose
  deriving DecidableEq, Repr

def step (s : Session) : Event → Option Session
  | .requestSent =>
    if s.handler = .sendRequest then some { s with handler := .waitConnected } else none
  | .requestFailed =>
    if s.handler = .sendRequest then
      some { s with handler := .closeDelete (some .linkClosed) } else none
  | .connectOk =>
    if s.handler = .waitConnected ∧ s.connected = some none then
      some { s with handler := .respond, connected := none } else none
  | .connectFailed =>
    match s.handler, s.connected with
    | .waitConnected, some (some _) => some { s with handler := .closeCheck, connected := none }
    | _, _ => none
  | .connectClosed =>
    if s.handler = .waitConnected ∧ s.done = true ∧ s.connected = none then
      some { s with handler := .closeCheck } else none
  | .responseOk =>
    if s.handler = .respond then some { s with handler := .select, client := .reading } else none
  | .responseFailed =>
    if s.handler = .respond then some { s with handler := .closeCheck } else none
  | .takeData =>
    if s.handler = .select then
      s.data.pop.map (fun r => { s with data := r.2, handler := .write r.1 r.1, unfinished := [] })
    else none
  | .writeSome n =>
    match s.handler with
    | .write msg rest =>
      if 0 < n ∧ n ≤ rest.length then
        some { s with handler := .write msg (rest.drop n), unfinished := s.unfinished ++ rest.take n }
      else none
    | _ => none
  | .writeDone =>
    match s.handler with
    | .write msg [] =>
      some { s with handler := .select, written := s.written ++ [msg], unfinished := [] }
    | _ => none
  | .writeFailed =>
    match s.handler with
    | .write _ _ => some { s with handler := .closeCheck }
    | _ => none
  | .selectDone =>
    if s.handler = .select ∧ s.done = true then some { s with handler := .closeCheck } else none
  | .selectClientDone =>
    if s.handler = .select ∧ s.client = .finished then
      some { s with handler := .closeCheck } else none
  | .closeChecked =>
    if s.handler = .closeCheck then
      some { s with handler := if s.done then .returned else .closeSend } else none
  | .closeSent ok =>
    if s.handler = .closeSend then
      some { s with handler := .closeDelete none
                    emitted := if ok then s.emitted ++ [(.close, [])] else s.emitted }
    else none
  | .closeDelete =>
    match s.handler with
    | .closeDelete err => some { s with handler := .closeDone err, registered := false }
    | _ => none
  | .closeDone =>
    match s.handler with
    | .closeDone err => some { close err s with handler := .returned }
    | _ => none
  | .clientRead chunk =>
    if s.client = .reading ∧ chunk ≠ [] ∧ chunk.length ≤ clientBuffer then
      some { s with client := .sending chunk, fromClient := s.fromClient ++ chunk } else none
  | .clientSent =>
    match s.client with
    | .sending chunk => some { s with client := .reading, emitted := s.emitted ++ [(.data, chunk)] }
    | _ => none
  | .clientSendFailed =>
    match s.client with
    | .sending _ => some { s with client := .finished }
    | _ => none
  | .clientEOF => if s.client = .reading then some { s with client := .finished } else none
  | .frame cmd payload =>
    if s.registered = true ∧ s.loop = .idle then
      some { s with loop := .handling cmd payload, received := s.received ++ [(cmd, payload)] }
    else none
  | .signalConnected =>
    match s.loop with
    | .handling .connected _ =>
      some { s with loop := .idle, connected := s.connected.or (some none) }
    | _ => none
  | .queueData =>
    match s.loop with
    | .handling cmd payload =>
      if cmd.carriesData = true ∧ s.data.queue.length < dataQueueSize then
        some { s with loop := .idle, data := s.data.push payload }
      else none
    | _ => none
  | .dropData =>
    match s.loop with
    | .handling cmd _ =>
      if cmd.carriesData = true ∧ s.done = true then some { s with loop := .idle } else none
    | _ => none
  | .overflow =>
    -- the default case: neither the queue nor `done` is ready
    match s.loop with
    | .handling cmd _ =>
      if cmd.carriesData = true ∧ s.done = false ∧ ¬ s.data.queue.length < dataQueueSize then
        some { s with loop := .closing .queueFull, registered := false }
      else none
    | _ => none
  | .remoteEnd =>
    match s.loop with
    | .handling .close _ => some { s with loop := .closing .remoteClosed, registered := false }
    | .handling .error text =>
      some { s with loop := .closing (.remoteError text), registered := false }
    | _ => none
  | .ignoreFrame =>
    match s.loop with
    | .handling .connect _ | .handling .udpConnect _ | .handling (.unknown _) _ =>
      some { s with loop := .idle }
    | _ => none
  | .loopClose =>
    match s.loop with
    | .closing err => some { close (some err) s with loop := .idle }
    | _ => none
  | .linkDelete =>
    if s.registered = true then some { s with registered := false, linkClosing := true } else none
  | .linkClose =>
    if s.linkClosing = true then
      some { close (some .linkClosed) s with linkClosing := false } else none

section Close

variable (err : Option SessionError) (s : Session)

@[simp] theorem close_registered : (close err s).registered = s.registered := by
  unfold close; split <;> rfl
@[simp] theorem close_data : (close err s).data = s.data := by unfold close; split <;> rfl
@[simp] theorem close_handler : (close err s).handler = s.handler := by unfold close; split <;> rfl
@[simp] theorem close_client : (close err s).client = s.client := by unfold close; split <;> rfl
@[simp] theorem close_loop : (close err s).loop = s.loop := by unfold close; split <;> rfl
@[simp] theorem close_written : (close err s).written = s.written := by unfold close; split <;> rfl
@[simp] theorem close_unfinished : (close err s).unfinished = s.unfinished := by
  unfold close; split <;> rfl
@[simp] theorem close_fromClient : (close err s).fromClient = s.fromClient := by
  unfold close; split <;> rfl
@[simp] theorem close_received : (close err s).received = s.received := by
  unfold close; split <;> rfl
@[simp] theorem close_emitted : (close err s).emitted = s.emitted := by unfold close; split <;> rfl

end Close

variable {s t : Session} {e : Event}

/-! ## What a step does -/

inductive Move (s : Session) : Event → Session → Prop where
  | requestSent (hp : s.handler = .sendRequest) :
      Move s .requestSent { s with handler := .waitConnected }
  | requestFailed (hp : s.handler = .sendRequest) :
      Move s .requestFailed { s with handler := .closeDelete (some .linkClosed) }
  | connectOk (hp : s.handler = .waitConnected) (hc : s.connected = some none) :
      Move s .connectOk { s with handler := .respond, connected := none }
  | connectFailed {err : SessionError} (hp : s.handler = .waitConnected)
      (hc : s.connected = some (some err)) :
      Move s .connectFailed { s with handler := .closeCheck, connected := none }
  | connectClosed (hp : s.handler = .waitConnected) (hd : s.done = true)
      (hc : s.connected = none) : Move s .connectClosed { s with handler := .closeCheck }
  | responseOk (hp : s.handler = .respond) :
      Move s .responseOk { s with handler := .select, client := .reading }
  | responseFailed (hp : s.handler = .respond) :
      Move s .responseFailed { s with handler := .closeCheck }
  | takeData {msg : Payload} {d : Fifo Payload} (hp : s.handler = .select)
      (hq : s.data.pop = some (msg, d)) :
      Move s .takeData { s with data := d, handler := .write msg msg, unfinished := [] }
  | writeSome {n : Nat} {msg rest : Payload} (hp : s.handler = .write msg rest)
      (hn : 0 < n ∧ n ≤ rest.length) :
      Move s (.writeSome n)
        { s with handler := .write msg (rest.drop n), unfinished := s.unfinished ++ rest.take n }
  | writeDone {msg : Payload} (hp : s.handler = .write msg []) :
      Move s .writeDone
        { s with handler := .select, written := s.written ++ [msg], unfinished := [] }
  | writeFailed {msg rest : Payload} (hp : s.handler = .write msg rest) :
      Move s .writeFailed { s with handler := .closeCheck }
  | selectDone (hp : s.handler = .select) (hd : s.done = true) :
      Move s .selectDone { s with handler := .closeCheck }
  | selectClientDone (hp : s.handler = .select) (hc : s.client = .finished) :
      Move s .selectClientDone { s with handler := .closeCheck }
  | closeChecked (hp : s.handler = .closeCheck) :
      Move s .closeChecked { s with handler := if s.done then .returned else .closeSend }
  | closeSent {ok : Bool} (hp : s.handler = .closeSend) :
      Move s (.closeSent ok)
        { s with
          handler := .closeDelete none
          emitted := if ok then s.emitted ++ [(.close, [])] else s.emitted }
  | closeDelete {err : Option SessionError} (hp : s.handler = .closeDelete err) :
      Move s .closeDelete { s with handler := .closeDone err, registered := false }
  | closeDone {err : Option SessionError} (hp : s.handler = .closeDone err) :
      Move s .closeDone { close err s with handler := .returned }
  | clientRead {chunk : Payload} (hc : s.client = .reading) (hne : chunk ≠ [])
      (hle : chunk.length ≤ clientBuffer) :
      Move s (.clientRead chunk)
        { s with client := .sending chunk, fromClient := s.fromClient ++ chunk }
  | clientSent {chunk : Payload} (hc : s.client = .sending chunk) :
      Move s .clientSent { s with client := .reading, emitted := s.emitted ++ [(.data, chunk)] }
  | clientSendFailed {chunk : Payload} (hc : s.client = .sending chunk) :
      Move s .clientSendFailed { s with client := .finished }
  | clientEOF (hc : s.client = .reading) : Move s .clientEOF { s with client := .finished }
  | frame {cmd : Command} {p : Payload} (hr : s.registered = true) (hl : s.loop = .idle) :
      Move s (.frame cmd p)
        { s with loop := .handling cmd p, received := s.received ++ [(cmd, p)] }
  | signalConnected {p : Payload} (hl : s.loop = .handling .connected p) :
      Move s .signalConnected { s with loop := .idle, connected := s.connected.or (some none) }
  | queueData {cmd : Command} {p : Payload} (hl : s.loop = .handling cmd p)
      (hc : cmd.carriesData = true) (hroom : s.data.queue.length < dataQueueSize) :
      Move s .queueData { s with loop := .idle, data := s.data.push p }
  | dropData {cmd : Command} {p : Payload} (hl : s.loop = .handling cmd p)
      (hc : cmd.carriesData = true) (hd : s.done = true) : Move s .dropData { s with loop := .idle }
  | overflow {cmd : Command} {p : Payload} (hl : s.loop = .handling cmd p)
      (hc : cmd.carriesData = true) (hd : s.done = false)
      (hfull : ¬s.data.queue.length < dataQueueSize) :
      Move s .overflow { s with loop := .closing .queueFull, registered := false }
  | remoteEnd {cmd : Command} {p : Payload} {err : SessionError} (hl : s.loop = .handling cmd p)
      (hc : cmd.carriesData = false) :
      Move s .remoteEnd { s with loop := .closing err, registered := false }
  | ignoreFrame {cmd : Command} {p : Payload} (hl : s.loop = .handling cmd p)
      (hc : cmd.carriesData = false) : Move s .ignoreFrame { s with loop := .idle }
  | loopClose {err : SessionError} (hl : s.loop = .closing err) :
      Move s .loopClose { close (some err) s with loop := .idle }
  | linkDelete (hr : s.registered = true) :
      Move s .linkDelete { s with registered := false, linkClosing := true }
  | linkClose (hk : s.linkClosing = true) :
      Move s .linkClose { close (some .linkClosed) s with linkClosing := false }

theorem step_move (h : step s e = some t) : Move s e t := by
  cases e with
  | requestSent =>
    simp only [step] at h
    split at h <;> cases h
    exact .requestSent ‹_›
  | requestFailed =>
    simp only [step] at h
    split at h <;> cases h
    exact .requestFailed ‹_›
  | connectOk =>
    simp only [step] at h
    split at h
    · rename_i hp
      cases h
      exact .connectOk hp.1 hp.2
    · cases h
  | connectFailed =>
    simp only [step] at h
    split at h
    · rename_i hp hc
      cases h
      exact .connectFailed hp hc
    · cases h
  | connectClosed =>
    simp only [step] at h
    split at h
    · rename_i hp
      cases h
      exact .connectClosed hp.1 hp.2.1 hp.2.2
    · cases h
  | responseOk =>
    simp only [step] at h
    split at h <;> cases h
    exact .responseOk ‹_›
  | responseFailed =>
    simp only [step] at h
    split at h <;> cases h
    exact .responseFailed ‹_›
  | takeData =>
    simp only [step] at h
    split at h
    · rename_i hp
      obtain ⟨⟨m, d⟩, hq, rfl⟩ := Option.map_eq_some_iff.mp h
      exact .takeData hp hq
    · cases h
  | writeSome n =>
    simp only [step] at h
    split at h
    · rename_i hp
      split at h
      · rename_i hn
        cases h
        exact .writeSome hp hn
      · cases h
    · cases h
  | writeDone =>
    simp only [step] at h
    split at h <;> cases h
    exact .writeDone ‹_›
  | writeFailed =>
    simp only [step] at h
    split at h <;> cases h
    exact .writeFailed ‹_›
  | selectDone =>
    simp only [step] at h
    split at h
    · rename_i hp
      cases h
      exact .selectDone hp.1 hp.2
    · cases h
  | selectClientDone =>
    simp only [step] at h
    split at h
    · rename_i hp
      cases h
      exact .selectClientDone hp.1 hp.2
    · cases h
  | closeChecked =>
    simp only [step] at h
    split at h <;> cases h
    exact .closeChecked ‹_›
  | closeSent ok =>
    simp only [step] at h
    split at h <;> cases h
    exact .closeSent ‹_›
  | closeDelete =>
    simp only [step] at h
    split at h <;> cases h
    exact .closeDelete ‹_›
  | closeDone =>
    simp only [step] at h
    split at h <;> cases h
    exact .closeDone ‹_›
  | clientRead chunk =>
    simp only [step] at h
    split at h
    · rename_i hp
      cases h
      exact .clientRead hp.1 hp.2.1 hp.2.2
    · cases h
  | clientSent =>
    simp only [step] at h
    split at h <;> cases h
    exact .clientSent ‹_›
  | clientSendFailed =>
    simp only [step] at h
    split at h <;> cases h
    exact .clientSendFailed ‹_›
  | clientEOF =>
    simp only [step] at h
    split at h <;> cases h
    exact .clientEOF ‹_›
  | frame cmd p =>
    simp only [step] at h
    split at h
    · rename_i hp
      cases h
      exact .frame hp.1 hp.2
    · cases h
  | signalConnected =>
    simp only [step] at h
    split at h <;> cases h
    exact .signalConnected ‹_›
  | queueData =>
    simp only [step] at h
    split at h
    · rename_i hl
      split at h
      · rename_i hc
        cases h
        exact .queueData hl hc.1 hc.2
      · cases h
    · cases h
  | dropData =>
    simp only [step] at h
    split at h
    · rename_i hl
      split at h
      · rename_i hc
        cases h
        exact .dropData hl hc.1 hc.2
      · cases h
    · cases h
  | overflow =>
    simp only [step] at h
    split at h
    · rename_i hl
      split at h
      · rename_i hc
        cases h
        exact .overflow hl hc.1 hc.2.1 hc.2.2
      · cases h
    · cases h
  | remoteEnd =>
    simp only [step] at h
    split at h
    · rename_i hl
      cases h
      exact .remoteEnd hl rfl
    · rename_i hl
      cases h
      exact .remoteEnd hl rfl
    · cases h
  | ignoreFrame =>
    simp only [step] at h
    split at h
    · rename_i hl
      cases h
      exact .ignoreFrame hl rfl
    · rename_i hl
      cases h
      exact .ignoreFrame hl rfl
    · rename_i hl
      cases h
      exact .ignoreFrame hl rfl
    · cases h
  | loopClose =>
    simp only [step] at h
    split at h <;> cases h
    exact .loopClose ‹_›
  | linkDelete =>
    simp only [step] at h
    split at h <;> cases h
    exact .linkDelete ‹_›
  | linkClose =>
    simp only [step] at h
    split at h <;> cases h
    exact .linkClose ‹_›

/-- `readLoop` loads the session for a frame only from the map. -/
theorem frame_some {cmd : Command} {p : Payload} (h : step s (.frame cmd p) = some t) :
    s.registered = true ∧ s.loop = .idle ∧
      t = { s with loop := .handling cmd p, received := s.received ++ [(cmd, p)] } := by
  cases step_move h with
  | frame hr hl => exact ⟨hr, hl, rfl⟩

/-! ## Who moves what -/

/-- The events of `readLoop` on a frame of this session. -/
def ofLoop : Event → Bool
  | .frame _ _ | .signalConnected | .queueData | .dropData | .overflow | .remoteEnd | .ignoreFrame
  | .loopClose => true
  | _ => false

/-- The events of `handleBroker`. -/
def ofHandler : Event → Bool
  | .requestSent | .requestFailed | .connectOk | .connectFailed | .connectClosed | .responseOk
  | .responseFailed | .takeData | .writeSome _ | .writeDone | .writeFailed | .selectDone
  | .selectClientDone | .closeChecked | .closeSent _ | .closeDelete | .closeDone => true
  | _ => false

/-- `readLoop` is where it was; the map may have lost the session. -/
structure LoopKept (s t : Session) : Prop where
  loop : t.loop = s.loop
  received : t.received = s.received
  sent : t.data.sent = s.data.sent
  registered : t.registered = true → s.registered = true

/-- `handleBroker` is where it was, and so is what it has taken and written. -/
structure HandlerKept (s t : Session) : Prop where
  handler : t.handler = s.handler
  taken : t.data.taken = s.data.taken
  written : t.written = s.written
  unfinished : t.unfinished = s.unfinished

theorem loopKept_step (h : step s e = some t) (he : ofLoop e = false) : LoopKept s t := by
  cases step_move h with
  | takeData _ hq => exact ⟨rfl, rfl, (Fifo.pop_some hq).1, id⟩
  | closeDelete | linkDelete => exact ⟨rfl, rfl, rfl, by simp⟩
  | closeDone | linkClose =>
    exact ⟨close_loop _ _, close_received _ _, congrArg Fifo.sent (close_data _ _),
      fun hr => (close_registered _ _).symm.trans hr⟩
  | frame | signalConnected | queueData | dropData | overflow | remoteEnd | ignoreFrame
  | loopClose => cases he
  | _ => exact ⟨rfl, rfl, rfl, id⟩

theorem handlerKept_step (h : step s e = some t) (he : ofHandler e = false) : HandlerKept s t := by
  cases step_move h with
  | loopClose | linkClose =>
    exact ⟨close_handler _ _, congrArg Fifo.taken (close_data _ _), close_written _ _,
      close_unfinished _ _⟩
  | clientRead | clientSent | clientSendFailed | clientEOF | frame | signalConnected | queueData
  | dropData | overflow | remoteEnd | ignoreFrame | linkDelete => exact ⟨rfl, rfl, rfl, rfl⟩
  | _ => cases he

/-- Every path deletes the session from the map before it closes `done`. -/
structure DeletedFirst (s : Session) : Prop where
  done : s.done = true → s.registered = false
  loop : ∀ err, s.loop = .closing err → s.registered = false
  handler : ∀ err, s.handler = .closeDone err → s.registered = false
  link : s.linkClosing = true → s.registered = false

/-- What follows once the map has lost the session. -/
theorem DeletedFirst.of_deleted (h : s.registered = false) : DeletedFirst s :=
  ⟨fun _ => h, fun _ _ => h, fun _ _ => h, fun _ => h⟩

theorem deletedFirst_close {err : Option SessionError} (h : s.registered = false) :
    (close err s).registered = false := (close_registered err s).trans h

theorem deletedFirst_step (hs : DeletedFirst s) (h : step s e = some t) : DeletedFirst t := by
  obtain ⟨hd, hl, hh, hk⟩ := hs
  cases step_move h with
  | requestSent | requestFailed | connectOk | connectFailed | connectClosed | responseOk
  | responseFailed | takeData | writeSome | writeDone | writeFailed | selectDone
  | selectClientDone | closeSent =>
    -- `handleBroker` goes somewhere else than to `closeDone`
    exact ⟨hd, hl, by simp, hk⟩
  | closeChecked =>
    refine ⟨hd, hl, fun err he => ?_, hk⟩
    simp only at he
    split at he <;> cases he
  | closeDelete | overflow | remoteEnd | linkDelete => exact .of_deleted rfl
  | closeDone hp => exact .of_deleted (deletedFirst_close (hh _ hp))
  | clientRead | clientSent | clientSendFailed | clientEOF => exact ⟨hd, hl, hh, hk⟩
  | frame | signalConnected | queueData | dropData | ignoreFrame =>
    exact ⟨hd, by simp, hh, hk⟩
  | loopClose hp => exact .of_deleted (deletedFirst_close (hl _ hp))
  | linkClose hp => exact .of_deleted (deletedFirst_close (hk hp))

/-- What the client accepted, against what was taken from the queue. A message
being written is the last one taken; after a failed write only its head counts. -/
def Delivered (s : Session) : Prop :=
  match s.handler with
  | .sendRequest | .waitConnected | .respond | .select =>
    s.data.taken = s.written ∧ s.unfinished = []
  | .write msg rest => s.data.taken = s.written ++ [msg] ∧ s.unfinished ++ rest = msg
  | _ => clientBytes s <+: s.data.taken.flatten

theorem delivered_kept (hk : HandlerKept s t) (hs : Delivered s) : Delivered t := by
  unfold Delivered clientBytes at hs ⊢
  rw [hk.handler, hk.taken, hk.written, hk.unfinished]
  exact hs

theorem delivered_step (hs : Delivered s) (h : step s e = some t) : Delivered t := by
  by_cases he : ofHandler e
  case neg => exact delivered_kept (handlerKept_step h (Bool.eq_false_iff.mpr he)) hs
  cases step_move h with
  | takeData hp hq =>
    obtain ⟨-, ht, -⟩ := Fifo.pop_some hq
    simp_all [Delivered]
  | @writeFailed _ rest hp =>
    simp only [Delivered, hp] at hs
    refine ⟨rest, ?_⟩
    simp [clientBytes, hs.1, hs.2]
  | closeChecked hp =>
    simp only [Delivered, hp] at hs
    cases hd : s.done <;> simpa [Delivered, clientBytes, hd] using hs
  | requestSent | requestFailed | connectOk | connectFailed | connectClosed | responseOk
  | responseFailed | writeSome | writeDone | selectDone | selectClientDone | closeSent
  | closeDelete | closeDone => simp_all [Delivered, clientBytes]
  | _ => cases he

theorem delivered_le (hs : Delivered s) : clientBytes s <+: s.data.taken.flatten := by
  unfold Delivered at hs
  split at hs
  case h_5 msg rest hw =>
    refine ⟨rest, ?_⟩
    simp [clientBytes, hs.1, hs.2]
  case h_6 => exact hs
  all_goals simp [clientBytes, hs.1, hs.2]

/-- The queue was given exactly the stream packets `readLoop` loaded, until one is lost. -/
structure Queued (s : Session) : Prop where
  idle : s.registered = true → s.loop = .idle → s.data.sent = dataOf s.received
  handling : ∀ cmd p, s.loop = .handling cmd p →
    s.data.sent ++ dataOf [(cmd, p)] = dataOf s.received
  closing : ∀ err, s.loop = .closing err → s.registered = false
  le : s.data.sent <+: dataOf s.received

theorem queued_step (ho : DeletedFirst s) (hs : Queued s) (h : step s e = some t) :
    Queued t := by
  by_cases he : ofLoop e
  · obtain ⟨hi, hh, hc, hle⟩ := hs
    -- nothing is lost as long as the session is registered
    have hgone : ∀ {P : Prop}, s.registered = false → s.registered = true → P :=
      fun hf ht => by rw [hf] at ht; cases ht
    cases step_move h with
    | frame hr hl =>
      refine ⟨by simp, ?_, by simp, ?_⟩
      · rintro c q hl'
        cases hl'
        simp [hi hr hl]
      · simpa using hle.trans (List.prefix_append _ _)
    | signalConnected hl =>
      exact ⟨fun _ _ => by simpa using hh _ _ hl, by simp, by simp, hle⟩
    | @queueData _ p hl hcarries =>
      have hsent : (s.data.push p).sent = dataOf s.received := by
        simpa [hcarries] using hh _ _ hl
      exact ⟨fun _ _ => hsent, by simp, by simp, hsent ▸ List.prefix_rfl⟩
    | dropData _ _ hd => exact ⟨fun hr _ => hgone (ho.done hd) hr, by simp, by simp, hle⟩
    | overflow | remoteEnd => exact ⟨by simp, by simp, fun _ _ => rfl, hle⟩
    | ignoreFrame hl hplain =>
      exact ⟨fun _ _ => by simpa [hplain] using hh _ _ hl, by simp, by simp, hle⟩
    | loopClose hl =>
      have hfalse := hc _ hl
      refine ⟨fun hr _ => hgone hfalse (by simpa using hr), by simp, by simp, ?_⟩
      simpa using hle
    | _ => cases he
  · -- what the queue was given and what was loaded are both `readLoop`'s
    have hk := loopKept_step h (Bool.eq_false_iff.mpr he)
    constructor
    · rw [hk.loop, hk.sent, hk.received]
      exact fun hr => hs.idle (hk.registered hr)
    · rw [hk.loop, hk.sent, hk.received]
      exact hs.handling
    · intro err herr
      rw [hk.loop] at herr
      exact Bool.eq_false_iff.mpr fun hr =>
        absurd (hk.registered hr) (Bool.eq_false_iff.mp (hs.closing err herr))
    · rw [hk.sent, hk.received]
      exact hs.le

/-- The chunks put on the link, against the bytes read from the client. -/
def Emitted (s : Session) : Prop :=
  match s.client with
  | .notStarted => dataOf s.emitted = [] ∧ s.fromClient = []
  | .reading => (dataOf s.emitted).flatten = s.fromClient
  | .sending chunk => (dataOf s.emitted).flatten ++ chunk = s.fromClient
  | .finished => (dataOf s.emitted).flatten <+: s.fromClient

theorem emitted_le (hs : Emitted s) : (dataOf s.emitted).flatten <+: s.fromClient := by
  unfold Emitted at hs
  split at hs
  case h_1 => simp [hs.1, hs.2]
  case h_2 => rw [hs]
  case h_3 chunk _ => exact ⟨chunk, hs⟩
  case h_4 => exact hs

/-- The client is read only after a `CmdConnected` of this session was seen. -/
structure Causal (s : Session) : Prop where
  slot : s.connected = some none → ∃ p, (Command.connected, p) ∈ s.received
  respond : s.handler = .respond → ∃ p, (Command.connected, p) ∈ s.received
  client : s.client ≠ .notStarted → ∃ p, (Command.connected, p) ∈ s.received
  waiting : s.handler = .sendRequest ∨ s.handler = .waitConnected ∨ s.handler = .respond →
    s.client = .notStarted
  handling : ∀ cmd p, s.loop = .handling cmd p → (cmd, p) ∈ s.received

/-- `close` offers no nil error. -/
theorem slot_close {err : Option SessionError} (h : (close err s).connected = some none) :
    s.connected = some none := by
  unfold close at h
  split at h
  · exact h
  · simp only at h
    split at h
    · cases h
    · exact h

theorem causal_close {err : Option SessionError} (hs : Causal s) : Causal (close err s) := by
  obtain ⟨hslot, hresp, hcl, hw, hh⟩ := hs
  refine ⟨fun hc => ?_, ?_, ?_, ?_, ?_⟩
  · rw [close_received]
    exact hslot (slot_close hc)
  · rwa [close_handler, close_received]
  · rwa [close_client, close_received]
  · rwa [close_handler, close_client]
  · rwa [close_loop, close_received]

theorem causal_step (hs : Causal s) (h : step s e = some t) : Causal t := by
  obtain ⟨hslot, hresp, hcl, hw, hh⟩ := hs
  cases step_move h with
  | requestSent hp => exact ⟨hslot, by simp, hcl, fun _ => hw (.inl hp), hh⟩
  | connectOk hp hc =>
    exact ⟨by simp, fun _ => hslot hc, hcl, fun _ => hw (.inr (.inl hp)), hh⟩
  | connectFailed => exact ⟨by simp, by simp, hcl, by simp, hh⟩
  | responseOk hp => exact ⟨hslot, by simp, fun _ => hresp hp, by simp, hh⟩
  | requestFailed | connectClosed | responseFailed | takeData | writeSome | writeDone
  | writeFailed | selectDone | selectClientDone | closeSent | closeDelete =>
    exact ⟨hslot, by simp, hcl, by simp, hh⟩
  | closeChecked =>
    cases s.done
    · exact ⟨hslot, by simp, hcl, by simp, hh⟩
    · exact ⟨hslot, by simp, hcl, by simp, hh⟩
  | closeDone =>
    obtain ⟨hslot, -, hcl, -, hh⟩ := causal_close ⟨hslot, hresp, hcl, hw, hh⟩
    exact ⟨hslot, by simp, hcl, by simp, hh⟩
  | clientRead hc | clientSent hc | clientSendFailed hc | clientEOF hc =>
    -- the client is read already
    have hstarted : s.client ≠ .notStarted := by simp [hc]
    exact ⟨hslot, hresp, fun _ => hcl hstarted, fun hp => absurd (hw hp) hstarted, hh⟩
  | frame =>
    refine ⟨fun hc => ?_, fun hr => ?_, fun hc => ?_, hw, ?_⟩
    · exact (hslot hc).imp fun q hq => List.mem_append_left _ hq
    · exact (hresp hr).imp fun q hq => List.mem_append_left _ hq
    · exact (hcl hc).imp fun q hq => List.mem_append_left _ hq
    · rintro c q hl
      cases hl
      simp
  | @signalConnected p hl =>
    have hm : ∃ p, (Command.connected, p) ∈ s.received := ⟨p, hh _ _ hl⟩
    exact ⟨fun _ => hm, hresp, hcl, hw, by simp⟩
  | queueData | dropData | overflow | remoteEnd | ignoreFrame =>
    exact ⟨hslot, hresp, hcl, hw, by simp⟩
  | loopClose =>
    obtain ⟨hslot, hresp, hcl, hw, -⟩ := causal_close ⟨hslot, hresp, hcl, hw, hh⟩
    exact ⟨hslot, hresp, hcl, hw, by simp⟩
  | linkDelete => exact ⟨hslot, hresp, hcl, hw, hh⟩
  | linkClose =>
    obtain ⟨hslot, hresp, hcl, hw, hh⟩ := causal_close ⟨hslot, hresp, hcl, hw, hh⟩
    exact ⟨hslot, hresp, hcl, hw, hh⟩

theorem emitted_step (hc : Causal s) (hs : Emitted s) (h : step s e = some t) : Emitted t := by
  cases step_move h with
  | responseOk hp =>
    have hn := hc.waiting (.inr (.inr hp))
    simp only [Emitted, hn] at hs
    simp [Emitted, hs.1, hs.2]
  | @closeSent ok => cases ok <;> simpa [Emitted] using hs
  | clientRead hcl =>
    simp only [Emitted, hcl] at hs
    simp [Emitted, hs]
  | clientSent hcl =>
    simp only [Emitted, hcl] at hs
    simp [Emitted, hs]
  | @clientSendFailed chunk hcl =>
    simp only [Emitted, hcl] at hs
    exact ⟨chunk, hs⟩
  | clientEOF hcl =>
    simp only [Emitted, hcl] at hs
    simp [Emitted, hs]
  | closeDone | loopClose | linkClose => simpa [Emitted] using hs
  | _ => exact hs

/-- Everything that holds of a proxy session whatever its surroundings do. -/
structure Inv (s : Session) : Prop where
  deletedFirst : DeletedFirst s
  delivered : Delivered s
  queued : Queued s
  causal : Causal s
  emitted : Emitted s

theorem inv_stored : Inv stored where
  deletedFirst := ⟨by simp [stored], by simp [stored], by simp [stored], by simp [stored]⟩
  delivered := ⟨rfl, rfl⟩
  queued := ⟨fun _ _ => rfl, by simp [stored], by simp [stored], List.prefix_rfl⟩
  causal := ⟨by simp [stored], by simp [stored], by simp [stored], fun _ => rfl, by simp [stored]⟩
  emitted := ⟨rfl, rfl⟩

theorem inv_step (hs : Inv s) (h : step s e = some t) : Inv t :=
  ⟨deletedFirst_step hs.deletedFirst h, delivered_step hs.delivered h,
    queued_step hs.deletedFirst hs.queued h, causal_step hs.causal h,
    emitted_step hs.causal hs.emitted h⟩

/-- The client receives an initial segment of the stream the link delivered. -/
theorem clientBytes_le (hs : Inv s) : clientBytes s <+: (dataOf s.received).flatten :=
  (delivered_le hs.delivered).trans
    ((flatten_mono s.data.ordered).trans (flatten_mono hs.queued.le))

end SplitProxy.ProxySession
