import SplitProxy.ProxySession
import SplitProxy.WorkerSession
import SplitProxy.TableFlows

/-!
# Proxies, broker and workers together

Every tunnel of every proxy at once: the broker connections of the proxies with
their sessions, the broker, and the broker connections of the workers with
theirs, joined by websockets that deliver in order what they deliver. The ends of
the UDP sessions are not part of the model; they may put whatever they like
under their own ids on the links. Session ids are pairwise distinct.
-/
namespace SplitProxy.Tunnels

open Runs SessionTable
open TableStreams (Message)

/-- A `BrokerConnection` of a proxy; its sessions are kept under their ids. -/
structure ProxyLink (Id : Type) where
  writeCh : Fifo (Message Id)
  done : Bool
  /-- `writeLoop` has not returned -/
  writing : Bool
  /-- the session whose frame `readLoop` has taken up last -/
  current : Option Id

/-- One `handleBrokerConnection` call of a worker. -/
structure WorkerLink (Id : Type) where
  cancelled : Bool
  send : Fifo (Frame Id)
  done : Bool
  /-- `brokerWriter` has not returned -/
  writing : Bool
  current : Option Id
  /-- the loop is over, and the sessions are closed one by one -/
  left : Bool

structure State (P W Id : Type) where
  proxy : P → ProxyLink Id
  /-- the connection a session was opened on, and its request -/
  opened : Id → Option (P × BrokerRequest Id)
  client : Id → ProxySession.Session
  up : P → Fifo (Message Id)
  broker : TableStreams.State P W Id
  /-- the writer of a proxy connection, or of a worker, has not returned -/
  proxyWriting : P → Bool
  workerWriting : W → Bool
  down : P → Fifo (Frame Id)
  toWorker : W → Fifo (Frame Id)
  worker : W → WorkerLink Id
  session : W → Id → WorkerSession.Session
  toBroker : W → Fifo (Frame Id)

def initial (P W Id : Type) : State P W Id where
  proxy := fun _ => ⟨.empty, false, true, none⟩
  opened := fun _ => none
  client := fun _ => ProxySession.stored
  up := fun _ => .empty
  broker := TableStreams.initial P W Id
  proxyWriting := fun _ => true
  workerWriting := fun _ => true
  down := fun _ => .empty
  toWorker := fun _ => .empty
  worker := fun _ => ⟨false, .empty, false, true, none, false⟩
  session := fun _ _ => WorkerSession.fresh
  toBroker := fun _ => .empty

inductive Event (P W Id : Type) where
  -- a proxy
  | openSession (p : P) (req : BrokerRequest Id)
  | openUDP (p : P) (req : BrokerRequest Id)
  | udpMessage (p : P) (f : Frame Id)
  | client (id : Id) (e : ProxySession.Event)
  | proxyRead (p : P)
  | proxyWrite (p : P) (ok : Bool)
  | proxyDown (p : P)
  -- the broker
  | brokerRead (p : P)
  | brokerTake (w : W)
  | broker (a : SessionTable.Event P W Id)
  | proxyWriter (p : P) (ok : Bool)
  | workerWriter (w : W) (ok : Bool)
  -- a worker
  | workerRead (w : W)
  | session (w : W) (id : Id) (e : WorkerSession.Event)
  | udpFrame (w : W) (f : Frame Id)
  | workerWrite (w : W) (ok : Bool)
  | workerDown (w : W)
  | workerLeave (w : W)
  | cancel (w : W)

variable {P W Id : Type} [DecidableEq P] [DecidableEq W] [DecidableEq Id]

/-- Whose step an event is. -/
inductive Party where
  | proxy
  | broker
  | worker

def partyOf : Event P W Id → Party
  | .openSession _ _ | .openUDP _ _ | .udpMessage _ _ | .client _ _ | .proxyRead _
  | .proxyWrite _ _ | .proxyDown _ => .proxy
  | .brokerRead _ | .brokerTake _ | .broker _ | .proxyWriter _ _ | .workerWriter _ _ => .broker
  | .workerRead _ | .session _ _ _ | .udpFrame _ _ | .workerWrite _ _ | .workerDown _
  | .workerLeave _ | .cancel _ => .worker

/-! ## What the sessions send -/

/-- The packet an event of a proxy session puts on the link. -/
def clientPacket (x : ProxySession.Session) : ProxySession.Event → Option Packet
  | .clientSent =>
    match x.client with
    | .sending chunk => some (.data, chunk)
    | _ => none
  | .closeSent true => some (.close, [])
  | _ => none

/-- What `c.send` is given for it. -/
def clientMessage (req : BrokerRequest Id) (x : ProxySession.Session) (e : ProxySession.Event) :
    Option (Message Id) :=
  if e = .requestSent then some (.request req)
  else (clientPacket x e).map fun p => .frame ⟨req.id, p.1, p.2⟩

/-- The packet an event of a worker session puts on the link. -/
def sessionPacket (x : WorkerSession.Session) : WorkerSession.Event → Option Packet
  | .connectedSent true => some (.connected, [])
  | .chunkSent =>
    match x.reader with
    | .send rest _ => some (.data, rest.take WorkerSession.maxPacketData)
    | _ => none
  | .openCloseSent true | .loopCloseSent true | .readerCloseSent true => some (.close, [])
  | _ => none

/-- The events of a proxy session that need the link's `done`. -/
def clientNeedsDone : ProxySession.Event → Bool
  | .requestFailed | .clientSendFailed | .closeSent false | .linkDelete | .linkClose => true
  | _ => false

/-- The events of a worker session that need the link's `done`. -/
def sessionNeedsDone : WorkerSession.Event → Bool
  | .openCloseSent false | .connectedSent false | .chunkFailed | .readerCloseSent false
  | .loopCloseSent false | .writerStop true | .readerStop true | .dropData true => true
  | _ => false

/-- The events of a worker session that need the context to be cancelled. -/
def sessionNeedsCancel : WorkerSession.Event → Bool
  | .openCancelled | .cancelledBeforeDial | .dialErrDelete true | .cancelledAfterDial => true
  | _ => false

/-- The surroundings of a worker session allow the event. -/
def sessionAllowed (l : WorkerLink Id) (e : WorkerSession.Event) : Bool :=
  (!sessionNeedsDone e || l.done) && (!sessionNeedsCancel e || l.cancelled) &&
    (e != .cleanupBegin || l.left)

/-- The events of its session that the connection loop of the link drives. -/
def ofLink : WorkerSession.Event → Bool
  | .spawn | .frame _ _ => true
  | _ => false

/-! ## The operations -/

def State.setProxy (s : State P W Id) (p : P) (l : ProxyLink Id) : State P W Id :=
  { s with proxy := Function.update s.proxy p l }

def State.setWorker (s : State P W Id) (w : W) (l : WorkerLink Id) : State P W Id :=
  { s with worker := Function.update s.worker w l }

def State.setClient (s : State P W Id) (id : Id) (x : ProxySession.Session) : State P W Id :=
  { s with client := Function.update s.client id x }

def State.setSession (s : State P W Id) (w : W) (id : Id) (x : WorkerSession.Session) :
    State P W Id :=
  { s with session := Function.update s.session w (Function.update (s.session w) id x) }

/-- `BrokerConnection.send`, the case of the channel. -/
def State.proxySend (s : State P W Id) (p : P) : Option (Message Id) → Option (State P W Id)
  | none => some s
  | some m =>
    let l := s.proxy p
    if l.writeCh.queue.length < writeQueueSize then
      some (s.setProxy p { l with writeCh := l.writeCh.push m })
    else none

/-- `sendPacket`, the case of the channel. -/
def State.workerSend (s : State P W Id) (w : W) : Option (Frame Id) → Option (State P W Id)
  | none => some s
  | some f =>
    let l := s.worker w
    if l.send.queue.length < brokerWriteQueue then
      some (s.setWorker w { l with send := l.send.push f })
    else none

/-- `readLoop` is done with the frame it has taken up last. -/
def clientReady (s : State P W Id) (p : P) : Bool :=
  match (s.proxy p).current with
  | none => true
  | some id => (s.client id).loop = .idle

def sessionReady (s : State P W Id) (w : W) : Bool :=
  match (s.worker w).current with
  | none => true
  | some id => (s.session w id).loop = .idle

/-- `readLoop` on a frame; an id that `c.sessions` does not map is skipped. -/
def State.loadClient (s : State P W Id) (p : P) (f : Frame Id) : State P W Id :=
  match s.opened f.id with
  | some (q, _) =>
    if q = p then
      match ProxySession.step (s.client f.id) (.frame f.cmd f.payload) with
      | some x => (s.setClient f.id x).setProxy p { s.proxy p with current := some f.id }
      | none => s
    else s
  | none => s

/-- The switch of `handleBrokerConnection` on a frame; a frame of a session that is
not in the map is skipped. -/
def State.dispatch (s : State P W Id) (w : W) (f : Frame Id) : Option (State P W Id) :=
  match f.cmd with
  | .connect =>
    if (s.worker w).cancelled then some s
    else (WorkerSession.step (s.session w f.id) .spawn).map fun x => s.setSession w f.id x
  | .udpConnect => none
  | cmd =>
    match WorkerSession.step (s.session w f.id) (.frame cmd f.payload) with
    | some x => some ((s.setSession w f.id x).setWorker w { s.worker w with current := some f.id })
    | none => some s

def isWriter : SessionTable.Event P W Id → Bool
  | .workerWriter _ | .proxyWriter _ => true
  | _ => false

/-- One step; `udp` tells the ids of the UDP sessions. -/
def step (udp : Id → Bool) (s : State P W Id) : Event P W Id → Option (State P W Id)
  | .openSession p req =>
    if s.opened req.id = none ∧ udp req.id = false ∧ req.mode = .tcp then
      some { s with opened := Function.update s.opened req.id (some (p, req)) }
    else none
  | .openUDP p req =>
    if s.opened req.id = none ∧ udp req.id = true ∧ req.mode = .udp then
      ({ s with opened := Function.update s.opened req.id (some (p, req)) }).proxySend p
        (some (.request req))
    else none
  | .udpMessage p f => if udp f.id = true then s.proxySend p (some (.frame f)) else none
  | .client id e =>
    match s.opened id, e with
    | none, _ | _, .frame _ _ => none
    | some (p, req), e =>
      if udp id = false ∧ (!clientNeedsDone e || (s.proxy p).done) = true then
        (ProxySession.step (s.client id) e).bind fun x =>
          (s.setClient id x).proxySend p (clientMessage req (s.client id) e)
      else none
  | .proxyRead p =>
    if clientReady s p = true then
      (s.down p).pop.map fun r =>
        let t := { s with down := Function.update s.down p r.2 }
        if udp r.1.id then t else t.loadClient p r.1
    else none
  | .proxyWrite p ok =>
    let l := s.proxy p
    if l.writing = true then
      l.writeCh.pop.map fun r =>
        if ok then
          { s.setProxy p { l with writeCh := r.2 } with
            up := Function.update s.up p ((s.up p).push r.1) }
        else s.setProxy p { l with writeCh := r.2, writing := false, done := true }
    else none
  | .proxyDown p => some (s.setProxy p { s.proxy p with done := true })
  | .brokerRead p =>
    (s.up p).pop.bind fun r =>
      (TableStreams.step s.broker (.proxyMessage p r.1)).map fun b =>
        { s with broker := b, up := Function.update s.up p r.2 }
  | .brokerTake w =>
    (s.toBroker w).pop.bind fun r =>
      (TableStreams.step s.broker (.workerMessage w r.1)).map fun b =>
        { s with broker := b, toBroker := Function.update s.toBroker w r.2 }
  | .broker a =>
    if isWriter a then none
    else (TableStreams.step s.broker (.table a)).map fun b => { s with broker := b }
  | .proxyWriter p ok =>
    if s.proxyWriting p = true then
      (s.broker.table.toProxy p).pop.bind fun r =>
        (TableStreams.step s.broker (.table (.proxyWriter p))).map fun b =>
          if ok then
            { s with broker := b, down := Function.update s.down p ((s.down p).push r.1.frame) }
          else { s with broker := b, proxyWriting := Function.update s.proxyWriting p false }
    else none
  | .workerWriter w ok =>
    if s.workerWriting w = true then
      (s.broker.table.toWorker w).pop.bind fun r =>
        (TableStreams.step s.broker (.table (.workerWriter w))).map fun b =>
          if ok then
            { s with
              broker := b
              toWorker := Function.update s.toWorker w ((s.toWorker w).push r.1.frame) }
          else { s with broker := b, workerWriting := Function.update s.workerWriting w false }
    else none
  | .workerRead w =>
    if (s.worker w).left = false ∧ sessionReady s w = true then
      (s.toWorker w).pop.bind fun r =>
        let t := { s with toWorker := Function.update s.toWorker w r.2 }
        if udp r.1.id then some t else t.dispatch w r.1
    else none
  | .session w id e =>
    if udp id = false ∧ ofLink e = false ∧ sessionAllowed (s.worker w) e = true then
      (WorkerSession.step (s.session w id) e).bind fun x =>
        (s.setSession w id x).workerSend w
          ((sessionPacket (s.session w id) e).map fun p => ⟨id, p.1, p.2⟩)
    else none
  | .udpFrame w f => if udp f.id = true then s.workerSend w (some f) else none
  | .workerWrite w ok =>
    let l := s.worker w
    if l.writing = true then
      l.send.pop.map fun r =>
        if ok then
          { s.setWorker w { l with send := r.2 } with
            toBroker := Function.update s.toBroker w ((s.toBroker w).push r.1) }
        else s.setWorker w { l with send := r.2, writing := false, done := true }
    else none
  | .workerDown w => some (s.setWorker w { s.worker w with done := true })
  | .workerLeave w =>
    if sessionReady s w = true then
      some (s.setWorker w { s.worker w with done := true, left := true })
    else none
  | .cancel w => some (s.setWorker w { s.worker w with cancelled := true })

/-- What the client of a tunnel has got its worker has read from the target, and what
the target has got the proxy has read from the client. -/
structure Intact (s : State P W Id) (id : Id) : Prop where
  client : ProxySession.clientBytes (s.client id) = [] ∨ ∃ x, s.broker.stored id = some x ∧
    ProxySession.clientBytes (s.client id) <+: (s.session x.worker id).fromTarget
  target : ∀ w, WorkerSession.targetBytes (s.session w id) <+: (s.client id).fromClient

/-- The session whose write queue an event fills. -/
def queues : Event P W Id → Option (W × Id)
  | .session w id .queueData => some (w, id)
  | _ => none

/-- The loop of a worker queues nothing for a session from which it has dropped a chunk. -/
def KeepsOrder (s : State P W Id) (e : Event P W Id) : Prop :=
  ∀ k ∈ queues e, (s.session k.1 k.2).dropped = false

instance (s : State P W Id) (e : Event P W Id) : Decidable (KeepsOrder s e) :=
  inferInstanceAs (Decidable (∀ k ∈ queues e, (s.session k.1 k.2).dropped = false))

end SplitProxy.Tunnels
