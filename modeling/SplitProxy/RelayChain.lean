import SplitProxy.OpenSession
import SplitProxy.ProxySession
import SplitProxy.SessionTable
import SplitProxy.WorkerProcess

/-!
# The relay chain

Proxies, the broker and workers, joined by their websockets, with every queue a
frame passes through. All links are up: the events that begin with a failed read
or write, a close of a connection or a shutdown are left out, and so are pings,
which carry no frame. A websocket holds the number of messages `Capacities`
gives it; a `WriteMessage` waits while it holds that many. The proxies share one
broker, where `P` stands for the proxy connections and `W` for the workers.
-/
namespace SplitProxy.RelayChain

open Runs
open SessionTable (BrokerRequest workerQueueSize proxyQueueSize)
open WorkerProcess (SessionId parseFrame)

/-- What the proxy sends: a request as text, frames as binary messages. -/
inductive Message where
  | text (req : BrokerRequest SessionId)
  | binary (msg : Payload)
  deriving DecidableEq

structure Capacities (P W : Type) where
  toBroker : P → Nat
  toProxy : P → Nat
  toWorker : W → Nat
  fromWorker : W → Nat
  toBroker_pos : ∀ p, 0 < toBroker p
  toProxy_pos : ∀ p, 0 < toProxy p
  toWorker_pos : ∀ w, 0 < toWorker w
  fromWorker_pos : ∀ w, 0 < fromWorker w

/-! ## The proxy -/

/-- A session `openSession` has made, and the datagram the UDP relay sends on it. -/
structure Entry where
  request : BrokerRequest SessionId
  session : ProxySession.Session
  datagram : Option Payload

/-- A `BrokerConnection` -/
structure Proxy where
  entries : List Entry
  /-- the session `readLoop` works on a frame of -/
  readLoop : Option Nat
  writeCh : List Message
  /-- the message `writeLoop` has taken -/
  writing : Option Message

namespace Proxy

def start : Proxy := ⟨[], none, [], none⟩

/-- Where `readLoop` stands with a session. -/
def loopAt (s : Proxy) (i : Nat) : ProxySession.LoopPc :=
  (s.entries[i]?).elim .idle fun x => x.session.loop

/-- `c.send` while `c.done` is open -/
def send (s : Proxy) : Option Message → Option Proxy
  | none => some s
  | some m =>
    if s.writeCh.length < writeQueueSize then some { s with writeCh := s.writeCh ++ [m] } else none

/-- `c.sessions.Delete(id)` -/
def unregister (s : Proxy) (id : SessionId) : Proxy :=
  { s with
    entries := s.entries.map fun x =>
      if x.request.id = id then { x with session := { x.session with registered := false } }
      else x }

def set (s : Proxy) (i : Nat) (x : Entry) : Proxy := { s with entries := s.entries.set i x }

/-- `openSession` up to `c.sessions.Store` -/
def openSession (s : Proxy) (req : BrokerRequest SessionId) : Proxy :=
  { s with entries := (s.unregister req.id).entries ++ [⟨req, ProxySession.stored, none⟩] }

/-- The steps of the goroutines that own a session; what a UDP client sends
comes through the relay. -/
def own (mode : Mode) : ProxySession.Event → Bool
  | .requestSent | .connectOk | .connectFailed | .connectClosed | .responseOk | .responseFailed
  | .takeData | .writeSome _ | .writeDone | .writeFailed | .selectDone | .selectClientDone
  | .closeChecked | .closeSent true | .closeDelete | .closeDone | .clientSent | .clientEOF => true
  | .clientRead _ => mode = .tcp
  | _ => false

/-- The steps of `readLoop` on a frame it has in hand. -/
def handles : ProxySession.Event → Bool
  | .signalConnected | .queueData | .dropData | .overflow | .remoteEnd | .ignoreFrame
  | .loopClose => true
  | _ => false

/-- The step is a `c.sessions.Delete`. -/
def deletes : ProxySession.Event → Bool
  | .closeDelete | .overflow | .remoteEnd => true
  | _ => false

/-- What the step sends to `writeCh`. -/
def sends (x : Entry) : ProxySession.Event → Option Message
  | .requestSent => some (.text x.request)
  | .closeSent _ => some (.binary (packet x.request.id.val .close []))
  | .clientSent =>
    match x.session.client with
    | .sending chunk => some (.binary (packet x.request.id.val .data chunk))
    | _ => none
  | _ => none

/-- One step of a session, with its effect on the map. -/
def apply (s : Proxy) (i : Nat) (e : ProxySession.Event) : Option Proxy :=
  match s.entries[i]? with
  | none => none
  | some x =>
    (ProxySession.step x.session e).map fun y =>
      let t := s.set i { x with session := y }
      if deletes e then t.unregister x.request.id else t

def ownStep (s : Proxy) (i : Nat) (e : ProxySession.Event) : Option Proxy :=
  match s.entries[i]? with
  | none => none
  | some x =>
    if own x.request.mode e = true then (s.send (sends x e)).bind fun t => t.apply i e else none

/-- The UDP relay has a datagram for a session it uses. -/
def datagram (s : Proxy) (i : Nat) (payload : Payload) : Option Proxy :=
  match s.entries[i]? with
  | none => none
  | some x =>
    if x.request.mode = .udp ∧ x.session.client = .reading ∧ x.datagram = none then
      some (s.set i { x with datagram := some payload })
    else none

def datagramSent (s : Proxy) (i : Nat) : Option Proxy :=
  match s.entries[i]? with
  | none => none
  | some x =>
    x.datagram.bind fun payload =>
      (s.send (some (.binary (packet x.request.id.val .udpData payload)))).map fun t =>
        t.set i { x with datagram := none }

/-- `readLoop` up to its switch. -/
def receive (s : Proxy) (msg : Payload) : Option Proxy :=
  if s.readLoop = none then
    match parseFrame msg with
    | none => some s
    | some f =>
      match s.entries.findIdx? fun x => x.session.registered && decide (x.request.id = f.id) with
      | none => some s
      | some i => (s.apply i (.frame f.cmd f.payload)).map fun t => { t with readLoop := some i }
  else none

/-- The switch of `readLoop`. -/
def handle (s : Proxy) (e : ProxySession.Event) : Option Proxy :=
  s.readLoop.bind fun i =>
    if handles e = true then
      (s.apply i e).map fun t =>
        { t with readLoop := if t.loopAt i = .idle then none else some i }
    else none

end Proxy

/-! ## The chain -/

structure State (P W : Type) where
  proxy : P → Proxy
  table : SessionTable.State P W SessionId
  /-- what `ProxyConnection.writer` and the writer of a worker have taken -/
  proxyWriting : P → Option Payload
  workerWriting : W → Option Payload
  worker : W → WorkerProcess.State
  /-- what `brokerWriter` has taken -/
  brokerWriting : W → Option Payload
  -- the websockets
  toBroker : P → List Message
  toProxy : P → List Payload
  toWorker : W → List Payload
  fromWorker : W → List Payload

def initial (P W : Type) : State P W where
  proxy := fun _ => .start
  table := SessionTable.initial P W SessionId
  proxyWriting := fun _ => none
  workerWriting := fun _ => none
  worker := fun _ => WorkerProcess.start
  brokerWriting := fun _ => none
  toBroker := fun _ => []
  toProxy := fun _ => []
  toWorker := fun _ => []
  fromWorker := fun _ => []

inductive Event (P W : Type) where
  -- the proxy
  | openSession (p : P) (req : BrokerRequest SessionId)
  | session (p : P) (i : Nat) (e : ProxySession.Event)
  | datagram (p : P) (i : Nat) (payload : Payload)
  | datagramSent (p : P) (i : Nat)
  | writeLoopTake (p : P)
  | writeLoopWrite (p : P)
  | readLoopReceive (p : P)
  | readLoop (p : P) (e : ProxySession.Event)
  -- the broker
  | handlerReceive (p : P)
  | handler (p : P) (e : SessionTable.HandlerEvent W SessionId)
  | proxyWriterTake (p : P)
  | proxyWriterWrite (p : P)
  | workerWriterTake (w : W)
  | workerWriterWrite (w : W)
  | readerReceive (w : W)
  | reader (w : W) (e : SessionTable.ReaderEvent SessionId)
  -- the worker
  | connectionReceive (w : W)
  | connection (w : W) (e : WorkerProcess.LoopEvent)
  | opener (w : W) (i : Nat) (choice : Bool)
  | targetWriter (w : W) (i : Nat) (e : WorkerProcess.WriterEvent)
  | targetReader (w : W) (i : Nat) (e : WorkerProcess.ReaderEvent)
  | brokerWriterTake (w : W)
  | brokerWriterWrite (w : W)

/-- The steps of `proxyHandler` after a message has been read. -/
def inHandler {W : Type} : SessionTable.HandlerEvent W SessionId → Bool
  | .openRequest _ | .frame _ _ _ | .readFailed => false
  | _ => true

def inReader : SessionTable.ReaderEvent SessionId → Bool
  | .frame _ _ _ | .readFailed => false
  | _ => true

/-- The steps of the connection loop after a message has been read. -/
def inConnection : WorkerProcess.LoopEvent → Bool
  | .dispatch | .queue | .drop | .full | .next | .send _ => true
  | _ => false

variable {P W : Type} [DecidableEq P] [DecidableEq W]

section Operations

variable (s : State P W)

def setProxy (p : P) (x : Proxy) : State P W :=
  { s with proxy := Function.update s.proxy p x }

def setWorker (w : W) (x : WorkerProcess.State) : State P W :=
  { s with worker := Function.update s.worker w x }

def onTable (e : SessionTable.Event P W SessionId) : Option (State P W) :=
  (SessionTable.step s.table e).map fun t => { s with table := t }

def onWorker (w : W) (e : WorkerProcess.Event) : Option (State P W) :=
  (WorkerProcess.step (s.worker w) e).map fun x => setWorker s w x

/-- `proxyHandler` on the next message of the websocket. -/
def handlerReceive (p : P) : Option (State P W) :=
  match s.toBroker p with
  | [] => none
  | m :: rest =>
    let t := { s with toBroker := Function.update s.toBroker p rest }
    match m with
    | .text req => onTable t (.handler p (.openRequest req))
    | .binary msg =>
      match parseFrame msg with
      | none => if s.table.handler p = .reading then some t else none
      | some f => onTable t (.handler p (.frame f.id f.cmd f.payload))

/-- `workerReader` on the next message of the websocket. -/
def readerReceive (w : W) : Option (State P W) :=
  match s.fromWorker w with
  | [] => none
  | msg :: rest =>
    let t := { s with fromWorker := Function.update s.fromWorker w rest }
    match parseFrame msg with
    | none => if s.table.reader w = .reading then some t else none
    | some f => onTable t (.reader w (.frame f.id f.cmd f.payload))

/-- A writer of the broker takes the next frame of its channel. -/
def proxyWriterTake (p : P) : Option (State P W) :=
  match s.proxyWriting p, (s.table.toProxy p).queue with
  | none, f :: _ =>
    (onTable s (.proxyWriter p)).map fun t =>
      { t with
        proxyWriting := Function.update s.proxyWriting p
          (some (packet f.frame.id.val f.frame.cmd f.frame.payload)) }
  | _, _ => none

def workerWriterTake (w : W) : Option (State P W) :=
  match s.workerWriting w, (s.table.toWorker w).queue with
  | none, f :: _ =>
    (onTable s (.workerWriter w)).map fun t =>
      { t with
        workerWriting := Function.update s.workerWriting w
          (some (packet f.frame.id.val f.frame.cmd f.frame.payload)) }
  | _, _ => none

def brokerWriterTake (w : W) : Option (State P W) :=
  match s.brokerWriting w, ((s.worker w).links 0).send.queue with
  | none, f :: _ =>
    (onWorker s w (.brokerWrite 0 true)).map fun t =>
      { t with
        brokerWriting := Function.update s.brokerWriting w
          (some (packet f.id.val f.cmd f.payload)) }
  | _, _ => none

end Operations

def step (c : Capacities P W) (s : State P W) : Event P W → Option (State P W)
  | .openSession p req => some (setProxy s p ((s.proxy p).openSession req))
  | .session p i e => ((s.proxy p).ownStep i e).map fun x => setProxy s p x
  | .datagram p i payload => ((s.proxy p).datagram i payload).map fun x => setProxy s p x
  | .datagramSent p i => ((s.proxy p).datagramSent i).map fun x => setProxy s p x
  | .writeLoopTake p =>
    match (s.proxy p).writing, (s.proxy p).writeCh with
    | none, m :: rest => some (setProxy s p { s.proxy p with writeCh := rest, writing := some m })
    | _, _ => none
  | .writeLoopWrite p =>
    (s.proxy p).writing.bind fun m =>
      if (s.toBroker p).length < c.toBroker p then
        some { setProxy s p { s.proxy p with writing := none } with
          toBroker := Function.update s.toBroker p (s.toBroker p ++ [m]) }
      else none
  | .readLoopReceive p =>
    match s.toProxy p with
    | [] => none
    | msg :: rest =>
      ((s.proxy p).receive msg).map fun x =>
        { setProxy s p x with toProxy := Function.update s.toProxy p rest }
  | .readLoop p e => ((s.proxy p).handle e).map fun x => setProxy s p x
  | .handlerReceive p => handlerReceive s p
  | .handler p e => if inHandler e = true then onTable s (.handler p e) else none
  | .proxyWriterTake p => proxyWriterTake s p
  | .proxyWriterWrite p =>
    (s.proxyWriting p).bind fun msg =>
      if (s.toProxy p).length < c.toProxy p then
        some { s with
          proxyWriting := Function.update s.proxyWriting p none
          toProxy := Function.update s.toProxy p (s.toProxy p ++ [msg]) }
      else none
  | .workerWriterTake w => workerWriterTake s w
  | .workerWriterWrite w =>
    (s.workerWriting w).bind fun msg =>
      if (s.toWorker w).length < c.toWorker w then
        some { s with
          workerWriting := Function.update s.workerWriting w none
          toWorker := Function.update s.toWorker w (s.toWorker w ++ [msg]) }
      else none
  | .readerReceive w => readerReceive s w
  | .reader w e => if inReader e = true then onTable s (.reader w e) else none
  | .connectionReceive w =>
    match s.toWorker w with
    | [] => none
    | msg :: rest =>
      (onWorker s w (.loop (.receive msg))).map fun t =>
        { t with toWorker := Function.update s.toWorker w rest }
  | .connection w e => if inConnection e = true then onWorker s w (.loop e) else none
  | .opener w i choice => onWorker s w (.opener i choice)
  | .targetWriter w i e => onWorker s w (.writer i e)
  | .targetReader w i e => onWorker s w (.reader i e)
  | .brokerWriterTake w => brokerWriterTake s w
  | .brokerWriterWrite w =>
    (s.brokerWriting w).bind fun msg =>
      if (s.fromWorker w).length < c.fromWorker w then
        some { s with
          brokerWriting := Function.update s.brokerWriting w none
          fromWorker := Function.update s.fromWorker w (s.fromWorker w ++ [msg]) }
      else none

end SplitProxy.RelayChain
