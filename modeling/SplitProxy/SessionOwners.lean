import Mathlib.Logic.Function.Basic
import SplitProxy.Runs
import SplitProxy.Fifo
import SplitProxy.Wire
import SplitProxy.SyncMap
import SplitProxy.ProxySession

/-!
# The owners of the broker sessions

One `BrokerConnection` that stays up, with all its sessions: the `readLoop`, the
`handleBroker` calls that own one TCP session each, and the UDP associations that
own one session per route and target. The tunnel loop of `handleBroker` is
reduced to what it does to the session: it sends frames, takes from the data
queue, and may leave at any moment. A link that stays up refuses no frame, so
the paths behind a failed send are left out. `Key` stands for the strings
`getSessionKey` makes.
-/
namespace SplitProxy.SessionOwners

open Runs SyncMap ProxySession

/-- A `handleBroker` or `handleUDPBroker` call, up to the end of `waitConnected`
and, for `handleBroker`, of the tunnel. -/
inductive OwnerPc where
  | notCalled
  | stored
  | waiting
  | opened
  | leaving
  deriving DecidableEq, Repr

/-- The one `closeBrokerSession` call that got past a nil check. -/
inductive CloserPc where
  | notCalled
  | checked
  | sent
  | deleted
  | finished
  deriving DecidableEq, Repr

/-- The goroutine an association starts for a session, which ends in
`session.close()` and takes the session out of `brokerSessions`. -/
inductive ReaderPc (Key : Type) where
  | notStarted
  | running (key : Key)
  | closing (key : Key)
  | forgetting (key : Key)
  | returned
  deriving DecidableEq, Repr

/-- A `BrokerSession` with its owner; `udpClosed` is the flag of the
`UDPBrokerSession` around it. -/
structure Session (Id Key : Type) where
  id : Option Id
  data : List Payload
  connected : Option (Option SessionError)
  done : Bool
  owner : OwnerPc
  closer : CloserPc
  udpClosed : Bool
  reader : ReaderPc Key
  /-- packets `readLoop` loaded the session for -/
  received : List Packet

def unopened (Id Key : Type) : Session Id Key :=
  ⟨none, [], none, false, .notCalled, .notCalled, false, .notStarted, []⟩

inductive LoopPc (K : Type) where
  | idle
  | handling (k : K) (cmd : Command) (payload : Payload)
  | closing (k : K) (err : SessionError)
  deriving DecidableEq, Repr

/-- The relay loop of `handleSOCKS5UDPAssociate`, with `getOrCreateBrokerSession`
in it and the deferred `closeAllSessions` after it. -/
inductive RelayPc (K Key : Type) where
  | receiving
  | wanting (key : Key)
  | opening (key : Key) (k : K)
  | rejecting (k : K)
  | dropping (k : K)
  | closingAll
  | closingOne (key : Key) (k : K)
  | returned
  deriving DecidableEq, Repr

structure State (K A Id Key : Type) where
  sessions : Entries Id K
  session : K → Session Id Key
  loop : LoopPc K
  writeCh : Fifo (K × Packet)
  /-- the association that opened the session; none for `handleBroker` -/
  openedBy : K → Option A
  brokerSessions : A → Entries Key K
  relay : A → RelayPc K Key

def initial (K A Id Key : Type) : State K A Id Key where
  sessions := []
  session := fun _ => unopened Id Key
  loop := .idle
  writeCh := .empty
  openedBy := fun _ => none
  brokerSessions := fun _ => []
  relay := fun _ => .receiving

inductive OwnerEvent (Id : Type) where
  -- openSession and waitConnected
  | store (id : Id)
  | requested (request : Payload)
  | connectOk
  | connectFailed
  | connectClosed
  -- an open session
  | send (cmd : Command) (payload : Payload)
  | take
  | leave
  -- closeBrokerSession
  | closeCheck
  | closeSend
  | closeDelete
  | closeDone
  deriving DecidableEq, Repr

inductive LoopEvent (Id : Type) where
  | frame (id : Id) (cmd : Command) (payload : Payload)
  | signalConnected
  | queueData
  | dropData
  | overflow
  | remoteEnd
  | ignoreFrame
  | close
  deriving DecidableEq, Repr

inductive RelayEvent (K Id Key : Type) where
  -- getOrCreateBrokerSession
  | lookup (key : Key)
  | store (k : K) (id : Id)
  | reject
  | rejected
  | install
  | dropped
  -- closeAllSessions
  | finish
  | closeNext (key : Key)
  | closedOne
  | returned
  deriving DecidableEq, Repr

inductive ReaderEvent where
  | ended
  | close
  | closed
  | forget
  deriving DecidableEq, Repr

inductive Event (K A Id Key : Type) where
  | owner (k : K) (e : OwnerEvent Id)
  | loop (e : LoopEvent Id)
  | relay (a : A) (e : RelayEvent K Id Key)
  | reader (k : K) (e : ReaderEvent)
  | written
  deriving DecidableEq, Repr

variable {K A Id Key : Type} [DecidableEq K] [DecidableEq A] [DecidableEq Id] [DecidableEq Key]

def setSession (s : State K A Id Key) (k : K) (x : Session Id Key) : State K A Id Key :=
  { s with session := Function.update s.session k x }

def setRelay (s : State K A Id Key) (a : A) (pc : RelayPc K Key) : State K A Id Key :=
  { s with relay := Function.update s.relay a pc }

/-- `BrokerSession.close`. -/
def Session.close (err : Option SessionError) (x : Session Id Key) : Session Id Key :=
  if x.done then x
  else { x with
    done := true
    connected := match err, x.connected with
      | some e, none => some (some e)
      | _, c => c }

/-- `closeBrokerSession` up to its `isClosed` check. -/
def Session.startClose (x : Session Id Key) : Session Id Key :=
  { x with closer := if x.done then .finished else .checked }

/-- `UDPBrokerSession.close` once it holds the mutex, up to the same check. -/
def Session.udpClose (x : Session Id Key) : Session Id Key :=
  if x.udpClosed then x else { x.startClose with udpClosed := true }

/-- `UDPBrokerSession.isClosed`, which waits for a `close` in progress. -/
def Session.udpIsClosed (x : Session Id Key) : Option Bool :=
  if x.udpClosed then (if x.closer = .finished then some true else none) else some false

/-- `c.send`, which waits for a free slot; the open request stands in the channel
as a connect packet. -/
def send (s : State K A Id Key) (k : K) (p : Packet) : Option (State K A Id Key) :=
  if s.writeCh.queue.length < writeQueueSize then some { s with writeCh := s.writeCh.push (k, p) }
  else none

/-- `c.sessions.Store` of a new session. -/
def storeSession (s : State K A Id Key) (k : K) (id : Id) : State K A Id Key :=
  { setSession s k { unopened Id Key with id := some id, owner := .stored } with
    sessions := SyncMap.store s.sessions id k }

/-- Nobody holds `sessionsMu` of the association. -/
def muFree (s : State K A Id Key) (a : A) : Bool :=
  match s.relay a with
  | .closingAll => false
  | .closingOne _ _ => false
  | _ => true

def loopStep (s : State K A Id Key) : LoopEvent Id → Option (State K A Id Key)
  | .frame id cmd payload =>
    if s.loop = .idle then
      match load s.sessions id with
      | none => some s
      | some k =>
        let x := s.session k
        some { setSession s k { x with received := x.received ++ [(cmd, payload)] } with
               loop := .handling k cmd payload }
    else none
  | .signalConnected =>
    match s.loop with
    | .handling k .connected _ =>
      let x := s.session k
      some { setSession s k { x with connected := x.connected.or (some none) } with loop := .idle }
    | _ => none
  | .queueData =>
    match s.loop with
    | .handling k cmd payload =>
      let x := s.session k
      if cmd.carriesData = true ∧ x.data.length < dataQueueSize then
        some { setSession s k { x with data := x.data ++ [payload] } with loop := .idle }
      else none
    | _ => none
  | .dropData =>
    match s.loop with
    | .handling k cmd _ =>
      if cmd.carriesData = true ∧ (s.session k).done = true then some { s with loop := .idle }
      else none
    | _ => none
  | .overflow =>
    match s.loop with
    | .handling k cmd _ =>
      let x := s.session k
      if cmd.carriesData = true ∧ x.done = false ∧ ¬ x.data.length < dataQueueSize then
        some { s with
          loop := .closing k .queueFull
          sessions := x.id.elim s.sessions (SyncMap.delete s.sessions) }
      else none
    | _ => none
  | .remoteEnd =>
    match s.loop with
    | .handling k .close _ =>
      some { s with
        loop := .closing k .remoteClosed
        sessions := (s.session k).id.elim s.sessions (SyncMap.delete s.sessions) }
    | .handling k .error text =>
      some { s with
        loop := .closing k (.remoteError text)
        sessions := (s.session k).id.elim s.sessions (SyncMap.delete s.sessions) }
    | _ => none
  | .ignoreFrame =>
    match s.loop with
    | .handling _ .connect _ | .handling _ .udpConnect _ | .handling _ (.unknown _) _ =>
      some { s with loop := .idle }
    | _ => none
  | .close =>
    match s.loop with
    | .closing k err =>
      some { setSession s k ((s.session k).close (some err)) with loop := .idle }
    | _ => none

def ownerStep (s : State K A Id Key) (k : K) : OwnerEvent Id → Option (State K A Id Key)
  | .store id =>
    if (s.session k).owner = .notCalled then
      some { storeSession s k id with openedBy := Function.update s.openedBy k none }
    else none
  | .requested request =>
    if (s.session k).owner = .stored then
      (SessionOwners.send s k (.connect, request)).map
        (fun t => setSession t k { t.session k with owner := .waiting })
    else none
  | .connectOk =>
    let x := s.session k
    if x.owner = .waiting ∧ x.connected = some none then
      some (setSession s k { x with owner := .opened, connected := none })
    else none
  | .connectFailed =>
    let x := s.session k
    match x.owner, x.connected with
    | .waiting, some (some _) => some (setSession s k { x with owner := .leaving, connected := none })
    | _, _ => none
  | .connectClosed =>
    let x := s.session k
    if x.owner = .waiting ∧ x.done = true ∧ x.connected = none then
      some (setSession s k { x with owner := .leaving })
    else none
  | .send cmd payload =>
    if (s.session k).owner = .opened ∧ cmd.carriesData = true then
      SessionOwners.send s k (cmd, payload)
    else none
  | .take =>
    let x := s.session k
    match x.owner, x.data with
    | .opened, _ :: rest => some (setSession s k { x with data := rest })
    | _, _ => none
  | .leave =>
    let x := s.session k
    if x.owner = .opened ∧ s.openedBy k = none then
      some (setSession s k { x with owner := .leaving })
    else none
  | .closeCheck =>
    let x := s.session k
    if x.owner = .leaving ∧ s.openedBy k = none ∧ x.closer = .notCalled then
      some (setSession s k x.startClose)
    else none
  | .closeSend =>
    if (s.session k).closer = .checked then
      (SessionOwners.send s k (.close, [])).map
        (fun t => setSession t k { t.session k with closer := .sent })
    else none
  | .closeDelete =>
    let x := s.session k
    if x.closer = .sent then
      some { setSession s k { x with closer := .deleted } with
             sessions := x.id.elim s.sessions (SyncMap.delete s.sessions) }
    else none
  | .closeDone =>
    let x := s.session k
    if x.closer = .deleted then
      some (setSession s k { x.close none with closer := .finished })
    else none

def relayStep (s : State K A Id Key) (a : A) : RelayEvent K Id Key → Option (State K A Id Key)
  | .lookup key =>
    if s.relay a = .receiving then
      match load (s.brokerSessions a) key with
      | none => some (setRelay s a (.wanting key))
      | some k =>
        ((s.session k).udpIsClosed).map (fun closed =>
          if closed then
            { setRelay s a (.wanting key) with
              brokerSessions := Function.update s.brokerSessions a
                (SyncMap.delete (s.brokerSessions a) key) }
          else s)
    else none
  | .store k id =>
    match s.relay a with
    | .wanting key =>
      if (s.session k).owner = .notCalled then
        some { setRelay (storeSession s k id) a (.opening key k) with
               openedBy := Function.update s.openedBy k (some a) }
      else none
    | _ => none
  | .reject =>
    match s.relay a with
    | .opening _ k =>
      if (s.session k).owner = .leaving then
        some (setRelay (setSession s k (s.session k).startClose) a (.rejecting k))
      else none
    | _ => none
  | .rejected =>
    match s.relay a with
    | .rejecting k =>
      if (s.session k).closer = .finished then some (setRelay s a .receiving) else none
    | _ => none
  | .install =>
    match s.relay a with
    | .opening key k =>
      let x := s.session k
      if x.owner = .opened then
        let install := { setRelay (setSession s k { x with reader := .running key }) a .receiving with
          brokerSessions := Function.update s.brokerSessions a
            (SyncMap.store (s.brokerSessions a) key k) }
        match load (s.brokerSessions a) key with
        | none => some install
        | some k' =>
          ((s.session k').udpIsClosed).map (fun closed =>
            if closed then install
            else setRelay (setSession s k x.startClose) a (.dropping k))
      else none
    | _ => none
  | .dropped =>
    match s.relay a with
    | .dropping k =>
      if (s.session k).closer = .finished then some (setRelay s a .receiving) else none
    | _ => none
  | .finish => if s.relay a = .receiving then some (setRelay s a .closingAll) else none
  | .closeNext key =>
    if s.relay a = .closingAll then
      (load (s.brokerSessions a) key).map (fun k =>
        setRelay (setSession s k (s.session k).udpClose) a (.closingOne key k))
    else none
  | .closedOne =>
    match s.relay a with
    | .closingOne key k =>
      if (s.session k).closer = .finished then
        some { setRelay s a .closingAll with
               brokerSessions := Function.update s.brokerSessions a
                 (SyncMap.delete (s.brokerSessions a) key) }
      else none
    | _ => none
  | .returned =>
    if s.relay a = .closingAll ∧ s.brokerSessions a = [] then some (setRelay s a .returned)
    else none

def readerStep (s : State K A Id Key) (k : K) : ReaderEvent → Option (State K A Id Key)
  | .ended =>
    let x := s.session k
    match x.reader with
    | .running key => some (setSession s k { x with reader := .closing key })
    | _ => none
  | .close =>
    let x := s.session k
    match x.reader with
    | .closing _ => some (setSession s k x.udpClose)
    | _ => none
  | .closed =>
    let x := s.session k
    match x.reader with
    | .closing key =>
      if x.udpClosed = true ∧ x.closer = .finished then
        some (setSession s k { x with reader := .forgetting key })
      else none
    | _ => none
  | .forget =>
    let x := s.session k
    match x.reader, s.openedBy k with
    | .forgetting key, some a =>
      if muFree s a then
        some { setSession s k { x with reader := .returned } with
          brokerSessions := Function.update s.brokerSessions a
            (if load (s.brokerSessions a) key = some k then
              SyncMap.delete (s.brokerSessions a) key else s.brokerSessions a) }
      else none
    | _, _ => none

def step (s : State K A Id Key) : Event K A Id Key → Option (State K A Id Key)
  | .owner k e => ownerStep s k e
  | .loop e => loopStep s e
  | .relay a e => relayStep s a e
  | .reader k e => readerStep s k e
  | .written => s.writeCh.pop.map (fun r => { s with writeCh := r.2 })

/-! ## What a step does -/

inductive LoopMove (s : State K A Id Key) : LoopEvent Id → State K A Id Key → Prop where
  | notFound {id : Id} {cmd : Command} {payload : Payload} (hidle : s.loop = .idle)
      (hl : load s.sessions id = none) : LoopMove s (.frame id cmd payload) s
  | frame {id : Id} {cmd : Command} {payload : Payload} {k : K} (hidle : s.loop = .idle)
      (hl : load s.sessions id = some k) :
      LoopMove s (.frame id cmd payload)
        { setSession s k
            { s.session k with received := (s.session k).received ++ [(cmd, payload)] } with
          loop := .handling k cmd payload }
  | signalConnected {k : K} {payload : Payload} (hl : s.loop = .handling k .connected payload) :
      LoopMove s .signalConnected
        { setSession s k
            { s.session k with connected := (s.session k).connected.or (some none) } with
          loop := .idle }
  | queueData {k : K} {cmd : Command} {payload : Payload} (hl : s.loop = .handling k cmd payload)
      (hcmd : cmd.carriesData = true) (hroom : (s.session k).data.length < dataQueueSize) :
      LoopMove s .queueData
        { setSession s k { s.session k with data := (s.session k).data ++ [payload] } with
          loop := .idle }
  | dropData {k : K} {cmd : Command} {payload : Payload} (hl : s.loop = .handling k cmd payload)
      (hcmd : cmd.carriesData = true) (hdone : (s.session k).done = true) :
      LoopMove s .dropData { s with loop := .idle }
  | overflow {k : K} {cmd : Command} {payload : Payload} (hl : s.loop = .handling k cmd payload)
      (hcmd : cmd.carriesData = true) (hdone : (s.session k).done = false)
      (hfull : ¬(s.session k).data.length < dataQueueSize) :
      LoopMove s .overflow
        { s with
          loop := .closing k .queueFull
          sessions := (s.session k).id.elim s.sessions (SyncMap.delete s.sessions) }
  | remoteClose {k : K} {payload : Payload} (hl : s.loop = .handling k .close payload) :
      LoopMove s .remoteEnd
        { s with
          loop := .closing k .remoteClosed
          sessions := (s.session k).id.elim s.sessions (SyncMap.delete s.sessions) }
  | remoteError {k : K} {text : Payload} (hl : s.loop = .handling k .error text) :
      LoopMove s .remoteEnd
        { s with
          loop := .closing k (.remoteError text)
          sessions := (s.session k).id.elim s.sessions (SyncMap.delete s.sessions) }
  | ignoreFrame {k : K} {cmd : Command} {payload : Payload} (hl : s.loop = .handling k cmd payload)
      (hcmd : cmd = .connect ∨ cmd = .udpConnect ∨ ∃ c, cmd = .unknown c) :
      LoopMove s .ignoreFrame { s with loop := .idle }
  | close {k : K} {err : SessionError} (hl : s.loop = .closing k err) :
      LoopMove s .close { setSession s k ((s.session k).close (some err)) with loop := .idle }

inductive OwnerMove (s : State K A Id Key) (k : K) :
    OwnerEvent Id → State K A Id Key → Prop where
  | store {id : Id} (ho : (s.session k).owner = .notCalled) :
      OwnerMove s k (.store id)
        { storeSession s k id with openedBy := Function.update s.openedBy k none }
  | requested {request : Payload} (ho : (s.session k).owner = .stored)
      (hroom : s.writeCh.queue.length < writeQueueSize) :
      OwnerMove s k (.requested request)
        { setSession s k { s.session k with owner := .waiting } with
          writeCh := s.writeCh.push (k, (.connect, request)) }
  | connectOk (ho : (s.session k).owner = .waiting) (hc : (s.session k).connected = some none) :
      OwnerMove s k .connectOk
        (setSession s k { s.session k with owner := .opened, connected := none })
  | connectFailed {err : SessionError} (ho : (s.session k).owner = .waiting)
      (hc : (s.session k).connected = some (some err)) :
      OwnerMove s k .connectFailed
        (setSession s k { s.session k with owner := .leaving, connected := none })
  | connectClosed (ho : (s.session k).owner = .waiting) (hdone : (s.session k).done = true)
      (hc : (s.session k).connected = none) :
      OwnerMove s k .connectClosed (setSession s k { s.session k with owner := .leaving })
  | send {cmd : Command} {payload : Payload} (ho : (s.session k).owner = .opened)
      (hcmd : cmd.carriesData = true) (hroom : s.writeCh.queue.length < writeQueueSize) :
      OwnerMove s k (.send cmd payload) { s with writeCh := s.writeCh.push (k, (cmd, payload)) }
  | take {payload : Payload} {rest : List Payload} (ho : (s.session k).owner = .opened)
      (hd : (s.session k).data = payload :: rest) :
      OwnerMove s k .take (setSession s k { s.session k with data := rest })
  | leave (ho : (s.session k).owner = .opened) (hb : s.openedBy k = none) :
      OwnerMove s k .leave (setSession s k { s.session k with owner := .leaving })
  | closeCheck (ho : (s.session k).owner = .leaving) (hb : s.openedBy k = none)
      (hc : (s.session k).closer = .notCalled) :
      OwnerMove s k .closeCheck (setSession s k (s.session k).startClose)
  | closeSend (hc : (s.session k).closer = .checked)
      (hroom : s.writeCh.queue.length < writeQueueSize) :
      OwnerMove s k .closeSend
        { setSession s k { s.session k with closer := .sent } with
          writeCh := s.writeCh.push (k, (.close, [])) }
  | closeDelete (hc : (s.session k).closer = .sent) :
      OwnerMove s k .closeDelete
        { setSession s k { s.session k with closer := .deleted } with
          sessions := (s.session k).id.elim s.sessions (SyncMap.delete s.sessions) }
  | closeDone (hc : (s.session k).closer = .deleted) :
      OwnerMove s k .closeDone
        (setSession s k { (s.session k).close none with closer := .finished })

inductive RelayMove (s : State K A Id Key) (a : A) :
    RelayEvent K Id Key → State K A Id Key → Prop where
  | missing {key : Key} (ha : s.relay a = .receiving) (hl : load (s.brokerSessions a) key = none) :
      RelayMove s a (.lookup key) (setRelay s a (.wanting key))
  | stale {key : Key} {k : K} (ha : s.relay a = .receiving)
      (hl : load (s.brokerSessions a) key = some k)
      (hclosed : (s.session k).udpIsClosed = some true) :
      RelayMove s a (.lookup key)
        { setRelay s a (.wanting key) with
          brokerSessions := Function.update s.brokerSessions a
            (SyncMap.delete (s.brokerSessions a) key) }
  | found {key : Key} {k : K} (ha : s.relay a = .receiving)
      (hl : load (s.brokerSessions a) key = some k)
      (hopen : (s.session k).udpIsClosed = some false) : RelayMove s a (.lookup key) s
  | store {key : Key} {k : K} {id : Id} (ha : s.relay a = .wanting key)
      (ho : (s.session k).owner = .notCalled) :
      RelayMove s a (.store k id)
        { setRelay (storeSession s k id) a (.opening key k) with
          openedBy := Function.update s.openedBy k (some a) }
  | reject {key : Key} {k : K} (ha : s.relay a = .opening key k)
      (ho : (s.session k).owner = .leaving) :
      RelayMove s a .reject (setRelay (setSession s k (s.session k).startClose) a (.rejecting k))
  | rejected {k : K} (ha : s.relay a = .rejecting k) (hc : (s.session k).closer = .finished) :
      RelayMove s a .rejected (setRelay s a .receiving)
  | install {key : Key} {k : K} (ha : s.relay a = .opening key k)
      (ho : (s.session k).owner = .opened)
      (hl : ∀ k', load (s.brokerSessions a) key = some k' →
        (s.session k').udpIsClosed = some true) :
      RelayMove s a .install
        { setRelay (setSession s k { s.session k with reader := .running key }) a .receiving with
          brokerSessions := Function.update s.brokerSessions a
            (SyncMap.store (s.brokerSessions a) key k) }
  | superfluous {key : Key} {k k' : K} (ha : s.relay a = .opening key k)
      (ho : (s.session k).owner = .opened) (hl : load (s.brokerSessions a) key = some k')
      (hopen : (s.session k').udpIsClosed = some false) :
      RelayMove s a .install (setRelay (setSession s k (s.session k).startClose) a (.dropping k))
  | dropped {k : K} (ha : s.relay a = .dropping k) (hc : (s.session k).closer = .finished) :
      RelayMove s a .dropped (setRelay s a .receiving)
  | finish (ha : s.relay a = .receiving) : RelayMove s a .finish (setRelay s a .closingAll)
  | closeNext {key : Key} {k : K} (ha : s.relay a = .closingAll)
      (hl : load (s.brokerSessions a) key = some k) :
      RelayMove s a (.closeNext key)
        (setRelay (setSession s k (s.session k).udpClose) a (.closingOne key k))
  | closedOne {key : Key} {k : K} (ha : s.relay a = .closingOne key k)
      (hc : (s.session k).closer = .finished) :
      RelayMove s a .closedOne
        { setRelay s a .closingAll with
          brokerSessions := Function.update s.brokerSessions a
            (SyncMap.delete (s.brokerSessions a) key) }
  | returned (ha : s.relay a = .closingAll) (hm : s.brokerSessions a = []) :
      RelayMove s a .returned (setRelay s a .returned)

inductive ReaderMove (s : State K A Id Key) (k : K) : ReaderEvent → State K A Id Key → Prop where
  | ended {key : Key} (hr : (s.session k).reader = .running key) :
      ReaderMove s k .ended (setSession s k { s.session k with reader := .closing key })
  | close {key : Key} (hr : (s.session k).reader = .closing key) :
      ReaderMove s k .close (setSession s k (s.session k).udpClose)
  | closed {key : Key} (hr : (s.session k).reader = .closing key)
      (hu : (s.session k).udpClosed = true) (hc : (s.session k).closer = .finished) :
      ReaderMove s k .closed (setSession s k { s.session k with reader := .forgetting key })
  | forget {key : Key} {a : A} (hr : (s.session k).reader = .forgetting key)
      (hb : s.openedBy k = some a) (hmu : muFree s a = true) :
      ReaderMove s k .forget
        { setSession s k { s.session k with reader := .returned } with
          brokerSessions := Function.update s.brokerSessions a
            (if load (s.brokerSessions a) key = some k then
              SyncMap.delete (s.brokerSessions a) key else s.brokerSessions a) }

omit [DecidableEq A] [DecidableEq Key] in
theorem loopStep_move {s t : State K A Id Key} {e : LoopEvent Id} (h : loopStep s e = some t) :
    LoopMove s e t := by
  cases e with
  | frame id cmd payload =>
    simp only [loopStep] at h
    split at h
    · split at h <;> cases h
      · exact .notFound ‹_› ‹_›
      · exact .frame ‹_› ‹_›
    · cases h
  | signalConnected =>
    simp only [loopStep] at h
    split at h <;> cases h
    exact .signalConnected ‹_›
  | queueData =>
    simp only [loopStep] at h
    split at h
    · rename_i hl
      split at h <;> rename_i hc <;> cases h
      exact .queueData hl hc.1 hc.2
    · cases h
  | dropData =>
    simp only [loopStep] at h
    split at h
    · rename_i hl
      split at h <;> rename_i hc <;> cases h
      exact .dropData hl hc.1 hc.2
    · cases h
  | overflow =>
    simp only [loopStep] at h
    split at h
    · rename_i hl
      split at h <;> rename_i hc <;> cases h
      exact .overflow hl hc.1 hc.2.1 hc.2.2
    · cases h
  | remoteEnd =>
    simp only [loopStep] at h
    split at h <;> cases h
    · exact .remoteClose ‹_›
    · exact .remoteError ‹_›
  | ignoreFrame =>
    simp only [loopStep] at h
    split at h <;> cases h
    · exact .ignoreFrame ‹_› (Or.inl rfl)
    · exact .ignoreFrame ‹_› (Or.inr (Or.inl rfl))
    · exact .ignoreFrame ‹_› (Or.inr (Or.inr ⟨_, rfl⟩))
  | close =>
    simp only [loopStep] at h
    split at h <;> cases h
    exact .close ‹_›

omit [DecidableEq K] [DecidableEq A] [DecidableEq Id] [DecidableEq Key] in
theorem send_some {s t : State K A Id Key} {k : K} {p : Packet}
    (h : SessionOwners.send s k p = some t) :
    s.writeCh.queue.length < writeQueueSize ∧ t = { s with writeCh := s.writeCh.push (k, p) } := by
  unfold SessionOwners.send at h
  split at h <;> cases h
  exact ⟨‹_›, rfl⟩

omit [DecidableEq A] [DecidableEq Key] in
theorem ownerStep_move {s t : State K A Id Key} {k : K} {e : OwnerEvent Id}
    (h : ownerStep s k e = some t) : OwnerMove s k e t := by
  cases e with
  | store id =>
    simp only [ownerStep] at h
    split at h <;> cases h
    exact .store ‹_›
  | requested request =>
    simp only [ownerStep] at h
    split at h
    · obtain ⟨u, hu, rfl⟩ := Option.map_eq_some_iff.mp h
      obtain ⟨hroom, rfl⟩ := send_some hu
      exact .requested ‹_› hroom
    · cases h
  | connectOk =>
    simp only [ownerStep] at h
    split at h <;> rename_i hc <;> cases h
    exact .connectOk hc.1 hc.2
  | connectFailed =>
    simp only [ownerStep] at h
    split at h <;> cases h
    exact .connectFailed ‹_› ‹_›
  | connectClosed =>
    simp only [ownerStep] at h
    split at h <;> rename_i hc <;> cases h
    exact .connectClosed hc.1 hc.2.1 hc.2.2
  | send cmd payload =>
    simp only [ownerStep] at h
    split at h
    · rename_i hc
      obtain ⟨hroom, rfl⟩ := send_some h
      exact .send hc.1 hc.2 hroom
    · cases h
  | take =>
    simp only [ownerStep] at h
    split at h <;> cases h
    exact .take ‹_› ‹_›
  | leave =>
    simp only [ownerStep] at h
    split at h <;> rename_i hc <;> cases h
    exact .leave hc.1 hc.2
  | closeCheck =>
    simp only [ownerStep] at h
    split at h <;> rename_i hc <;> cases h
    exact .closeCheck hc.1 hc.2.1 hc.2.2
  | closeSend =>
    simp only [ownerStep] at h
    split at h
    · obtain ⟨u, hu, rfl⟩ := Option.map_eq_some_iff.mp h
      obtain ⟨hroom, rfl⟩ := send_some hu
      exact .closeSend ‹_› hroom
    · cases h
  | closeDelete =>
    simp only [ownerStep] at h
    split at h <;> cases h
    exact .closeDelete ‹_›
  | closeDone =>
    simp only [ownerStep] at h
    split at h <;> cases h
    exact .closeDone ‹_›

theorem relayStep_move {s t : State K A Id Key} {a : A} {e : RelayEvent K Id Key}
    (h : relayStep s a e = some t) : RelayMove s a e t := by
  cases e with
  | lookup key =>
    simp only [relayStep] at h
    split at h
    · rename_i ha
      split at h
      · cases h
        exact .missing ha ‹_›
      · rename_i k hl
        obtain ⟨closed, hcl, rfl⟩ := Option.map_eq_some_iff.mp h
        cases closed with
        | true => exact .stale ha hl hcl
        | false => exact .found ha hl hcl
    · cases h
  | store k id =>
    simp only [relayStep] at h
    split at h
    · split at h <;> cases h
      exact .store ‹_› ‹_›
    · cases h
  | reject =>
    simp only [relayStep] at h
    split at h
    · split at h <;> cases h
      exact .reject ‹_› ‹_›
    · cases h
  | rejected =>
    simp only [relayStep] at h
    split at h
    · split at h <;> cases h
      exact .rejected ‹_› ‹_›
    · cases h
  | install =>
    simp only [relayStep] at h
    split at h
    · rename_i key k ha
      split at h
      · rename_i ho
        split at h
        · rename_i hl
          cases h
          refine .install ha ho fun k' hk' => ?_
          rw [hl] at hk'
          cases hk'
        · rename_i k' hl
          obtain ⟨closed, hcl, rfl⟩ := Option.map_eq_some_iff.mp h
          cases closed with
          | true =>
            refine .install ha ho fun k'' hk'' => ?_
            cases hl.symm.trans hk''
            exact hcl
          | false => exact .superfluous ha ho hl hcl
      · cases h
    · cases h
  | dropped =>
    simp only [relayStep] at h
    split at h
    · split at h <;> cases h
      exact .dropped ‹_› ‹_›
    · cases h
  | finish =>
    simp only [relayStep] at h
    split at h <;> cases h
    exact .finish ‹_›
  | closeNext key =>
    simp only [relayStep] at h
    split at h
    · obtain ⟨k, hl, rfl⟩ := Option.map_eq_some_iff.mp h
      exact .closeNext ‹_› hl
    · cases h
  | closedOne =>
    simp only [relayStep] at h
    split at h
    · split at h <;> cases h
      exact .closedOne ‹_› ‹_›
    · cases h
  | returned =>
    simp only [relayStep] at h
    split at h <;> rename_i hc <;> cases h
    exact .returned hc.1 hc.2

omit [DecidableEq Id] in
theorem readerStep_move {s t : State K A Id Key} {k : K} {e : ReaderEvent}
    (h : readerStep s k e = some t) : ReaderMove s k e t := by
  cases e with
  | ended =>
    simp only [readerStep] at h
    split at h <;> cases h
    exact .ended ‹_›
  | close =>
    simp only [readerStep] at h
    split at h <;> cases h
    exact .close ‹_›
  | closed =>
    simp only [readerStep] at h
    split at h
    · rename_i hr
      split at h <;> rename_i hc <;> cases h
      exact .closed hr hc.1 hc.2
    · cases h
  | forget =>
    simp only [readerStep] at h
    split at h
    · split at h <;> cases h
      exact .forget ‹_› ‹_› ‹_›
    · cases h

/-! ## Properties -/

/-- `CmdClose` or `CmdError` was received for the session. -/
def Session.Ended (x : Session Id Key) : Prop :=
  ∃ payload, (.close, payload) ∈ x.received ∨ (.error, payload) ∈ x.received

/-- A `CmdClose` for the session was enqueued to the broker. -/
def Told (s : State K A Id Key) (k : K) : Prop := (k, (.close, [])) ∈ s.writeCh.sent

/-- `handleBroker`, or the association, has returned. -/
def OwnerReturned (s : State K A Id Key) (k : K) : Prop :=
  match s.openedBy k with
  | none => (s.session k).closer = .finished
  | some a => s.relay a = .returned

/-- No session is closed in silence. -/
def NoneAbandoned (s : State K A Id Key) : Prop :=
  ∀ k, OwnerReturned s k → (s.session k).done = true → ¬(s.session k).Ended → Told s k

/-- `readLoop` finds the data queue of a session full only after the owner has
passed the check in `closeBrokerSession`. -/
def Announced (s : State K A Id Key) : Event K A Id Key → Prop
  | .loop .overflow =>
    ∀ k cmd payload, s.loop = .handling k cmd payload → (s.session k).closer ≠ .notCalled
  | _ => True

/-! ## Where the sessions of an association are -/

def LoopPc.on : LoopPc K → Option K
  | .idle => none
  | .handling k _ _ => some k
  | .closing k _ => some k

/-- The session the relay loop holds outside `brokerSessions`. -/
def RelayPc.holds : RelayPc K Key → Option K
  | .opening _ k => some k
  | .rejecting k => some k
  | .dropping k => some k
  | _ => none

structure Placed (s : State K A Id Key) : Prop where
  owned : ∀ id k, load s.sessions id = some k → (s.session k).owner ≠ .notCalled
  looping : ∀ k, s.loop.on = some k → (s.session k).owner ≠ .notCalled
  opening : ∀ a key k, s.relay a = .opening key k → (s.session k).owner ≠ .notCalled ∧
    s.openedBy k = some a ∧ (s.session k).closer = .notCalled ∧ (s.session k).reader = .notStarted
  installed : ∀ a key k, load (s.brokerSessions a) key = some k →
    (s.session k).reader ≠ .notStarted
  reading : ∀ k, (s.session k).reader ≠ .notStarted → (s.session k).owner ≠ .notCalled ∧
    s.openedBy k ≠ none ∧ ((s.session k).udpClosed = false → (s.session k).closer = .notCalled)
  forgetting : ∀ k key, (s.session k).reader = .forgetting key → (s.session k).closer = .finished
  returned : ∀ a, s.relay a = .returned → s.brokerSessions a = []
  closing : ∀ a key k, s.relay a = .closingOne key k → load (s.brokerSessions a) key = some k
  accounted : ∀ k a, s.openedBy k = some a → (s.session k).closer = .finished ∨
    (s.relay a).holds = some k ∨ ∃ key, load (s.brokerSessions a) key = some k

omit [DecidableEq K] [DecidableEq A] in
theorem placed_initial : Placed (initial K A Id Key) where
  owned := fun id k h => by cases h
  looping := fun k h => by cases h
  opening := fun a key k h => by cases h
  installed := fun a key k h => by cases h
  reading := fun k h => absurd rfl h
  forgetting := fun k key h => by cases h
  returned := fun a h => by cases h
  closing := fun a key k h => by cases h
  accounted := fun k a h => by cases h

variable {s t : State K A Id Key} {k : K} {a : A} {key : Key}

omit [DecidableEq A] in
/-- One session moves on where it is. -/
theorem Placed.setSession (hi : Placed s) {x : Session Id Key}
    (hsession : t.session = Function.update s.session k x)
    (hsessions : ∀ id j, load t.sessions id = some j → load s.sessions id = some j)
    (hloop : ∀ j, t.loop.on = some j → s.loop.on = some j ∨ ∃ id, load s.sessions id = some j)
    (hrelay : t.relay = s.relay) (hopened : t.openedBy = s.openedBy)
    (hmaps : t.brokerSessions = s.brokerSessions)
    (howner : (s.session k).owner ≠ .notCalled → x.owner ≠ .notCalled)
    (hopening : (∃ a key, s.relay a = .opening key k) →
      x.closer = .notCalled ∧ x.reader = .notStarted)
    (hreader : (s.session k).reader ≠ .notStarted → x.reader ≠ .notStarted)
    (hreading : x.reader ≠ .notStarted → x.owner ≠ .notCalled ∧ s.openedBy k ≠ none ∧
      (x.udpClosed = false → x.closer = .notCalled))
    (hforgetting : ∀ key, x.reader = .forgetting key → x.closer = .finished)
    (hfinished : (s.session k).closer = .finished → x.closer = .finished) : Placed t := by
  have hself : t.session k = x := by rw [hsession, Function.update_self]
  have hother : ∀ {j}, j ≠ k → t.session j = s.session j := fun hne => by
    rw [hsession, Function.update_of_ne hne]
  have hown : ∀ {j}, (s.session j).owner ≠ .notCalled → (t.session j).owner ≠ .notCalled := by
    intro j hj
    by_cases hk : j = k
    · subst hk
      rw [hself]
      exact howner hj
    · rw [hother hk]
      exact hj
  constructor
  case owned => exact fun id j hl => hown (hi.owned id j (hsessions id j hl))
  case looping =>
    intro j hj
    rcases hloop j hj with hj | ⟨id, hl⟩
    · exact hown (hi.looping j hj)
    · exact hown (hi.owned id j hl)
  case opening =>
    intro b key' j hj
    rw [hrelay] at hj
    obtain ⟨ho, hb, hc, hr⟩ := hi.opening b key' j hj
    refine ⟨hown ho, by rw [hopened]; exact hb, ?_⟩
    by_cases hk : j = k
    · subst hk
      rw [hself]
      exact hopening ⟨b, key', hj⟩
    · rw [hother hk]
      exact ⟨hc, hr⟩
  case installed =>
    intro b key' j hl
    rw [hmaps] at hl
    have hr := hi.installed b key' j hl
    by_cases hk : j = k
    · subst hk
      rw [hself]
      exact hreader hr
    · rw [hother hk]
      exact hr
  case reading =>
    intro j hj
    by_cases hk : j = k
    · subst hk
      rw [hself] at hj ⊢
      rw [hopened]
      exact hreading hj
    · rw [hother hk] at hj ⊢
      rw [hopened]
      exact hi.reading j hj
  case forgetting =>
    intro j key' hj
    by_cases hk : j = k
    · subst hk
      rw [hself] at hj ⊢
      exact hforgetting key' hj
    · rw [hother hk] at hj ⊢
      exact hi.forgetting j key' hj
  case returned =>
    intro b hb
    rw [hrelay] at hb
    rw [hmaps]
    exact hi.returned b hb
  case closing =>
    rw [hrelay, hmaps]
    exact hi.closing
  case accounted =>
    intro j b hb
    rw [hopened] at hb
    rw [hrelay, hmaps]
    rcases hi.accounted j b hb with hf | hh
    · left
      by_cases hk : j = k
      · subst hk
        rw [hself]
        exact hfinished hf
      · rw [hother hk]
        exact hf
    · exact Or.inr hh

omit [DecidableEq K] in
theorem load_elim_delete {m : Entries Id K} {o : Option Id} {id : Id} {j : K}
    (h : load (o.elim m (SyncMap.delete m)) id = some j) : load m id = some j := by
  cases o with
  | none => exact h
  | some i => exact (load_of_delete h).2

omit [DecidableEq Id] [DecidableEq Key] in
@[simp] theorem close_owner (err : Option SessionError) (x : Session Id Key) :
    (x.close err).owner = x.owner := by unfold Session.close; split <;> rfl
omit [DecidableEq Id] [DecidableEq Key] in
@[simp] theorem close_closer (err : Option SessionError) (x : Session Id Key) :
    (x.close err).closer = x.closer := by unfold Session.close; split <;> rfl
omit [DecidableEq Id] [DecidableEq Key] in
@[simp] theorem close_udpClosed (err : Option SessionError) (x : Session Id Key) :
    (x.close err).udpClosed = x.udpClosed := by unfold Session.close; split <;> rfl
omit [DecidableEq Id] [DecidableEq Key] in
@[simp] theorem close_reader (err : Option SessionError) (x : Session Id Key) :
    (x.close err).reader = x.reader := by unfold Session.close; split <;> rfl
omit [DecidableEq Id] [DecidableEq Key] in
@[simp] theorem close_received (err : Option SessionError) (x : Session Id Key) :
    (x.close err).received = x.received := by unfold Session.close; split <;> rfl

omit [DecidableEq K] [DecidableEq A] in
/-- A session nobody has opened is nowhere. -/
theorem Placed.unused (hi : Placed s) (h : (s.session k).owner = .notCalled) :
    (∀ id, load s.sessions id ≠ some k) ∧ s.loop.on ≠ some k ∧
    (∀ a key, s.relay a ≠ .opening key k) ∧ (∀ a key, load (s.brokerSessions a) key ≠ some k) ∧
    (s.session k).reader = .notStarted := by
  have hr : (s.session k).reader = .notStarted := by
    by_contra hn
    exact (hi.reading k hn).1 h
  exact ⟨fun id hl => hi.owned id k hl h, fun hl => hi.looping k hl h,
    fun a key ha => (hi.opening a key k ha).1 h, fun a key hl => hi.installed a key k hl hr, hr⟩

omit [DecidableEq K] [DecidableEq A] in
/-- Only the parts of the state that place sessions matter. -/
theorem Placed.frame (hi : Placed s) (hsession : t.session = s.session)
    (hsessions : ∀ id j, load t.sessions id = some j → load s.sessions id = some j)
    (hloop : ∀ j, t.loop.on = some j → s.loop.on = some j) (hrelay : t.relay = s.relay)
    (hopened : t.openedBy = s.openedBy) (hmaps : t.brokerSessions = s.brokerSessions) :
    Placed t := by
  obtain ⟨h₁, h₂, h₃, h₄, h₅, h₆, h₇, h₈, h₉⟩ := hi
  constructor
  · rw [hsession]
    exact fun id j hl => h₁ id j (hsessions id j hl)
  · rw [hsession]
    exact fun j hj => h₂ j (hloop j hj)
  · rwa [hsession, hrelay, hopened]
  · rwa [hsession, hmaps]
  · rwa [hsession, hopened]
  · rwa [hsession]
  · rwa [hrelay, hmaps]
  · rwa [hrelay, hmaps]
  · rwa [hsession, hrelay, hopened, hmaps]

section

omit [DecidableEq A]

/-- `openSession` stores a new session for the owner `o`. -/
theorem Placed.store (hi : Placed s) (hk : (s.session k).owner = .notCalled) {id : Id}
    {o : Option A} {pc : A → RelayPc K Key}
    (hpc : ∀ b, pc b = s.relay b ∨ (s.relay b).holds = none ∧ s.relay b ≠ .returned ∧
      o = some b ∧ ∃ key, pc b = .opening key k)
    (ho : ∀ b, o = some b → (pc b).holds = some k)
    (ht : t = { storeSession s k id with
      openedBy := Function.update s.openedBy k o, relay := pc }) : Placed t := by
  obtain ⟨-, -, hn₃, hn₄, -⟩ := hi.unused hk
  subst ht
  have hself : Function.update s.session k { unopened Id Key with id := some id, owner := .stored } k
      = { unopened Id Key with id := some id, owner := .stored } := Function.update_self _ _ _
  have hother : ∀ {j}, j ≠ k →
      Function.update s.session k { unopened Id Key with id := some id, owner := .stored } j =
        s.session j := fun hne => Function.update_of_ne hne _ _
  have hown : ∀ j, (s.session j).owner ≠ .notCalled → (Function.update s.session k
      { unopened Id Key with id := some id, owner := .stored } j).owner ≠ .notCalled := by
    intro j hj
    by_cases hjk : j = k
    · rw [hjk, hself]
      exact nofun
    · rw [hother hjk]
      exact hj
  constructor
  case owned =>
    intro i j hl
    rcases load_of_store hl with ⟨-, rfl⟩ | ⟨-, hl⟩
    · dsimp only [storeSession, SessionOwners.setSession]
      rw [hself]
      exact nofun
    · exact hown j (hi.owned i j hl)
  case looping => exact fun j hj => hown j (hi.looping j hj)
  case opening =>
    intro b key' j hj
    dsimp only [storeSession, SessionOwners.setSession] at hj ⊢
    rcases hpc b with hb | ⟨-, -, hb, key'', hb'⟩
    · rw [hb] at hj
      have hjk : j ≠ k := fun he => hn₃ b key' (he ▸ hj)
      rw [hother hjk, Function.update_of_ne hjk]
      exact hi.opening b key' j hj
    · rw [hb'] at hj
      cases hj
      rw [hself, Function.update_self]
      exact ⟨nofun, hb, rfl, rfl⟩
  case installed =>
    intro b key' j hl
    have hjk : j ≠ k := fun he => hn₄ b key' (he ▸ hl)
    dsimp only [storeSession, SessionOwners.setSession]
    rw [hother hjk]
    exact hi.installed b key' j hl
  case reading =>
    intro j hj
    dsimp only [storeSession, SessionOwners.setSession] at hj ⊢
    by_cases hjk : j = k
    · rw [hjk, hself] at hj
      exact absurd rfl hj
    · rw [hother hjk] at hj ⊢
      rw [Function.update_of_ne hjk]
      exact hi.reading j hj
  case forgetting =>
    intro j key' hj
    dsimp only [storeSession, SessionOwners.setSession] at hj ⊢
    by_cases hjk : j = k
    · rw [hjk, hself] at hj
      cases hj
    · rw [hother hjk] at hj ⊢
      exact hi.forgetting j key' hj
  case returned =>
    intro b hb
    rcases hpc b with hp | ⟨-, hr, -, key', hb'⟩
    · exact hi.returned b (hp ▸ hb)
    · exact absurd (hb'.symm.trans hb) nofun
  case closing =>
    intro b key' j hb
    rcases hpc b with hp | ⟨-, hr, -, key'', hb'⟩
    · exact hi.closing b key' j (hp ▸ hb)
    · exact absurd (hb'.symm.trans hb) nofun
  case accounted =>
    intro j b hb
    dsimp only [storeSession, SessionOwners.setSession] at hb ⊢
    by_cases hjk : j = k
    · subst hjk
      rw [Function.update_self] at hb
      exact Or.inr (Or.inl (ho b hb))
    · rw [Function.update_of_ne hjk] at hb
      rw [hother hjk]
      rcases hi.accounted j b hb with hf | hh | hm
      · exact Or.inl hf
      · rcases hpc b with hp | ⟨hn, -⟩
        · exact Or.inr (Or.inl (hp ▸ hh))
        · rw [hn] at hh
          cases hh
      · exact Or.inr (Or.inr hm)

/-- A change to one session that leaves its place alone. -/
theorem Placed.touch (hi : Placed s) {x : Session Id Key}
    (hsession : t.session = Function.update s.session k x)
    (hsessions : ∀ id j, load t.sessions id = some j → load s.sessions id = some j)
    (hloop : ∀ j, t.loop.on = some j → s.loop.on = some j ∨ ∃ id, load s.sessions id = some j)
    (hrelay : t.relay = s.relay) (hopened : t.openedBy = s.openedBy)
    (hmaps : t.brokerSessions = s.brokerSessions)
    (howner : (s.session k).owner ≠ .notCalled → x.owner ≠ .notCalled)
    (hreader : x.reader = (s.session k).reader) (hudp : x.udpClosed = (s.session k).udpClosed)
    (hcloser : x.closer = (s.session k).closer) : Placed t := by
  refine hi.setSession hsession hsessions hloop hrelay hopened hmaps howner ?_ (by rw [hreader]; exact id)
    ?_ ?_ (by rw [hcloser]; exact id)
  · rintro ⟨a, key, ha⟩
    rw [hcloser, hreader]
    exact (hi.opening a key k ha).2.2
  · intro hr
    rw [hreader] at hr
    obtain ⟨ho, hb, hc⟩ := hi.reading k hr
    exact ⟨howner ho, hb, fun hu => hcloser.trans (hc (hudp ▸ hu))⟩
  · intro key hf
    rw [hreader] at hf
    exact hcloser.trans (hi.forgetting k key hf)

theorem placed_loop {e : LoopEvent Id} (hi : Placed s) (h : loopStep s e = some t) : Placed t := by
  have hsame : ∀ id j, load s.sessions id = some j → load s.sessions id = some j := fun _ _ h => h
  cases loopStep_move h with
  | notFound => exact hi
  | @frame id cmd payload k hidle hl =>
    refine hi.touch rfl hsame (fun j hj => Or.inr ⟨id, ?_⟩) rfl rfl rfl (fun h => h) rfl rfl rfl
    cases hj
    exact hl
  | signalConnected | queueData =>
    exact hi.touch rfl hsame (by simp [LoopPc.on]) rfl rfl rfl (fun h => h) rfl rfl rfl
  | dropData | ignoreFrame => exact hi.frame rfl hsame (by simp [LoopPc.on]) rfl rfl rfl
  | overflow hl | remoteClose hl | remoteError hl =>
    refine hi.frame rfl (fun _ _ h => load_elim_delete h) (fun j hj => ?_) rfl rfl rfl
    rw [hl]
    exact hj
  | close =>
    exact hi.touch rfl hsame (by simp [LoopPc.on]) rfl rfl rfl (fun h => by simpa using h) (by simp)
      (by simp) (by simp)

/-- `closeBrokerSession` past its check, before it is finished. -/
theorem Placed.closer (hi : Placed s) {x : Session Id Key}
    (hc : (s.session k).closer ≠ .notCalled ∧ (s.session k).closer ≠ .finished)
    (hsession : t.session = Function.update s.session k x)
    (hsessions : ∀ id j, load t.sessions id = some j → load s.sessions id = some j)
    (hloop : t.loop = s.loop) (hrelay : t.relay = s.relay) (hopened : t.openedBy = s.openedBy)
    (hmaps : t.brokerSessions = s.brokerSessions) (howner : x.owner = (s.session k).owner)
    (hreader : x.reader = (s.session k).reader) (hudp : x.udpClosed = (s.session k).udpClosed) :
    Placed t := by
  refine hi.setSession hsession hsessions (fun j hj => Or.inl (hloop ▸ hj)) hrelay hopened hmaps
    (fun h => howner ▸ h) ?_ (fun h => hreader ▸ h) ?_ ?_ (fun hf => absurd hf hc.2)
  · rintro ⟨a, key, ha⟩
    exact absurd (hi.opening a key k ha).2.2.1 hc.1
  · intro hr
    rw [hreader] at hr
    obtain ⟨ho, hb, hn⟩ := hi.reading k hr
    rw [howner, hudp]
    exact ⟨ho, hb, fun hu => absurd (hn hu) hc.1⟩
  · intro key hf
    rw [hreader] at hf
    exact absurd (hi.forgetting k key hf) hc.2

theorem placed_owner {e : OwnerEvent Id} (hi : Placed s) (h : ownerStep s k e = some t) :
    Placed t := by
  cases ownerStep_move h with
  | store hk => exact hi.store hk (fun b => Or.inl rfl) (fun b hb => by cases hb) rfl
  | requested | connectOk | connectFailed | connectClosed | leave =>
    exact hi.touch rfl (fun _ _ h => h) (fun _ h => Or.inl h) rfl rfl rfl (fun _ => nofun) rfl rfl rfl
  | send => exact hi.frame rfl (fun _ _ h => h) (fun _ h => h) rfl rfl rfl
  | take =>
    exact hi.touch rfl (fun _ _ h => h) (fun _ h => Or.inl h) rfl rfl rfl (fun h => h) rfl rfl rfl
  | closeCheck ho hb hc =>
    refine hi.setSession rfl (fun _ _ h => h) (fun _ h => Or.inl h) rfl rfl rfl (fun h => h)
      ?_ (fun h => h) ?_ ?_ ?_
    · rintro ⟨a, key, ha⟩
      have hb' := (hi.opening a key k ha).2.1
      rw [hb] at hb'
      cases hb'
    · exact fun hr => absurd hb (hi.reading k hr).2.1
    · intro key hf
      exact absurd (hc.symm.trans (hi.forgetting k key hf)) nofun
    · exact fun hf => absurd (hc.symm.trans hf) nofun
  | closeSend hc =>
    exact hi.closer (by rw [hc]; decide) rfl (fun _ _ h => h) rfl rfl rfl rfl rfl rfl rfl
  | closeDelete hc =>
    exact hi.closer (by rw [hc]; decide) rfl (fun _ _ h => load_elim_delete h) rfl rfl rfl rfl rfl
      rfl rfl
  | closeDone hc =>
    exact hi.closer (by rw [hc]; decide) rfl (fun _ _ h => h) rfl rfl rfl rfl (by simp) (by simp)
      (by simp)

end

omit [DecidableEq K] in
/-- The relay loop of one association moves on, perhaps writing `brokerSessions`. -/
theorem Placed.setRelay (hi : Placed s) (a : A) (pc : RelayPc K Key) (m : Entries Key K)
    (hpc : (∀ key j, pc ≠ .opening key j) ∨ pc = s.relay a)
    (hm : ∀ key j, load m key = some j → (s.session j).reader ≠ .notStarted)
    (hr : pc = .returned → m = [])
    (hone : ∀ key j, pc = .closingOne key j → load m key = some j)
    (ha : ∀ j, (s.session j).closer ≠ .finished →
      ((s.relay a).holds = some j ∨ ∃ key, load (s.brokerSessions a) key = some j) →
      pc.holds = some j ∨ ∃ key, load m key = some j)
    (hsession : t.session = s.session) (hsessions : t.sessions = s.sessions)
    (hloop : t.loop = s.loop) (hrelay : t.relay = Function.update s.relay a pc)
    (hopened : t.openedBy = s.openedBy)
    (hmaps : t.brokerSessions = Function.update s.brokerSessions a m) : Placed t := by
  constructor
  case owned =>
    rw [hsession, hsessions]
    exact hi.owned
  case looping =>
    rw [hsession, hloop]
    exact hi.looping
  case opening =>
    intro b key j hj
    rw [hrelay] at hj
    rw [hsession, hopened]
    by_cases hb : b = a
    · subst hb
      rw [Function.update_self] at hj
      rcases hpc with hn | hs
      · exact absurd hj (hn key j)
      · exact hi.opening b key j (hs ▸ hj)
    · rw [Function.update_of_ne hb] at hj
      exact hi.opening b key j hj
  case installed =>
    intro b key j hl
    rw [hmaps] at hl
    rw [hsession]
    by_cases hb : b = a
    · subst hb
      rw [Function.update_self] at hl
      exact hm key j hl
    · rw [Function.update_of_ne hb] at hl
      exact hi.installed b key j hl
  case reading =>
    rw [hsession, hopened]
    exact hi.reading
  case forgetting =>
    rw [hsession]
    exact hi.forgetting
  case returned =>
    intro b hb
    rw [hrelay] at hb
    rw [hmaps]
    by_cases hba : b = a
    · subst hba
      rw [Function.update_self] at hb ⊢
      exact hr hb
    · rw [Function.update_of_ne hba] at hb ⊢
      exact hi.returned b hb
  case closing =>
    intro b key' j hb
    rw [hrelay] at hb
    rw [hmaps]
    by_cases hba : b = a
    · subst hba
      rw [Function.update_self] at hb ⊢
      exact hone key' j hb
    · rw [Function.update_of_ne hba] at hb ⊢
      exact hi.closing b key' j hb
  case accounted =>
    intro j b hb
    rw [hopened] at hb
    rw [hsession, hrelay, hmaps]
    by_cases hf : (s.session j).closer = .finished
    · exact Or.inl hf
    · right
      by_cases hba : b = a
      · subst hba
        rw [Function.update_self, Function.update_self]
        exact ha j hf ((hi.accounted j b hb).resolve_left hf)
      · rw [Function.update_of_ne hba, Function.update_of_ne hba]
        exact (hi.accounted j b hb).resolve_left hf

omit [DecidableEq Id] [DecidableEq Key] in
theorem finished_of_udpIsClosed {x : Session Id Key} (h : x.udpIsClosed = some true) :
    x.closer = .finished := by
  unfold Session.udpIsClosed at h
  split at h
  · split at h
    · assumption
    · cases h
  · cases h

omit [DecidableEq A] in
/-- A session the association has installed may be closed under its mutex. -/
theorem Placed.udpClose (hi : Placed s) (hr : (s.session k).reader ≠ .notStarted) :
    Placed (SessionOwners.setSession s k (s.session k).udpClose) := by
  obtain ⟨ho, hb, hc⟩ := hi.reading k hr
  unfold Session.udpClose
  split
  · exact hi.touch rfl (fun _ _ h => h) (fun _ h => Or.inl h) rfl rfl rfl (fun h => h) rfl rfl rfl
  · rename_i hu
    have hnc := hc (by simpa using hu)
    refine hi.setSession rfl (fun _ _ h => h) (fun _ h => Or.inl h) rfl rfl rfl (fun h => h) ?_
      (fun h => h) (fun _ => ⟨ho, hb, nofun⟩) ?_ ?_
    · rintro ⟨a, key, ha⟩
      exact absurd (hi.opening a key k ha).2.2.2 hr
    · exact fun key hf => absurd (hnc.symm.trans (hi.forgetting k key hf)) nofun
    · exact fun hf => absurd (hnc.symm.trans hf) nofun

omit [DecidableEq K] in
/-- The relay loop moves on and leaves `brokerSessions` alone. -/
theorem Placed.moveRelay (hi : Placed s) (pc : RelayPc K Key) (hpc : ∀ key j, pc ≠ .opening key j)
    (hr : pc = .returned → s.brokerSessions a = []) (hone : ∀ key j, pc ≠ .closingOne key j)
    (ha : ∀ j, (s.relay a).holds = some j → (s.session j).closer = .finished ∨ pc.holds = some j) :
    Placed (SessionOwners.setRelay s a pc) := by
  refine hi.setRelay a pc (s.brokerSessions a) (Or.inl hpc) (hi.installed a) hr
    (fun key j h => absurd h (hone key j)) ?_ rfl rfl rfl rfl rfl
    (Function.update_eq_self a s.brokerSessions).symm
  rintro j hj (hh | hl)
  · exact Or.inl ((ha j hh).resolve_left hj)
  · exact Or.inr hl

/-- A session the relay loop gives up before it is installed. -/
theorem Placed.discard (hi : Placed s) (h : s.relay a = .opening key k) {pc : RelayPc K Key}
    (hpc : pc = .rejecting k ∨ pc = .dropping k) :
    Placed (SessionOwners.setRelay (SessionOwners.setSession s k (s.session k).startClose) a pc) := by
  obtain ⟨-, hb, hc, hr⟩ := hi.opening a key k h
  have hpc' : ∀ key j, pc ≠ .opening key j := by
    rcases hpc with rfl | rfl <;> exact nofun
  have hi₁ : Placed (SessionOwners.setRelay s a pc) := by
    refine hi.moveRelay pc hpc' ?_ ?_ fun j hj => Or.inr ?_
    · rcases hpc with rfl | rfl <;> exact nofun
    · rcases hpc with rfl | rfl <;> exact nofun
    · rw [h] at hj
      cases hj
      rcases hpc with rfl | rfl <;> rfl
  refine hi₁.setSession (k := k) (x := (s.session k).startClose) rfl (fun _ _ h => h)
    (fun _ h => Or.inl h) rfl rfl rfl (fun h => h) ?_ (fun h => h) (fun hn => absurd hr hn) ?_ ?_
  · rintro ⟨b, key', hb'⟩
    by_cases hba : b = a
    · subst hba
      simp only [SessionOwners.setRelay, Function.update_self] at hb'
      exact absurd hb' (hpc' key' k)
    · simp only [SessionOwners.setRelay, Function.update_of_ne hba] at hb'
      have hb₂ := (hi.opening b key' k hb').2.1
      rw [hb] at hb₂
      exact absurd (Option.some.inj hb₂).symm hba
  · intro key' hf
    rw [show (s.session k).startClose.reader = (s.session k).reader from rfl, hr] at hf
    cases hf
  · intro hf
    rw [show (SessionOwners.setRelay s a pc).session k = s.session k from rfl, hc] at hf
    cases hf

omit [DecidableEq A] in
/-- The goroutine that reads an installed session moves on. -/
theorem Placed.moveReader (hi : Placed s) (hr : (s.session k).reader ≠ .notStarted)
    {pc : ReaderPc Key} (hpc : pc ≠ .notStarted)
    (hf : ∀ key, pc = .forgetting key → (s.session k).closer = .finished) :
    Placed (SessionOwners.setSession s k { s.session k with reader := pc }) := by
  obtain ⟨ho, hb, hc⟩ := hi.reading k hr
  refine hi.setSession rfl (fun _ _ h => h) (fun _ h => Or.inl h) rfl rfl rfl (fun h => h) ?_
    (fun _ => hpc) (fun _ => ⟨ho, hb, hc⟩) hf (fun h => h)
  rintro ⟨a, key, ha⟩
  exact absurd (hi.opening a key k ha).2.2.2 hr

theorem placed_reader {e : ReaderEvent} (hi : Placed s) (h : readerStep s k e = some t) :
    Placed t := by
  cases readerStep_move h with
  | ended hr => exact hi.moveReader (by rw [hr]; simp) (by simp) (by simp)
  | close hr => exact hi.udpClose (by rw [hr]; simp)
  | closed hr hu hc => exact hi.moveReader (by rw [hr]; simp) (by simp) fun _ _ => hc
  | @forget key a hr hb hmu =>
    have hfin := hi.forgetting k key hr
    have hi₁ : Placed (SessionOwners.setSession s k { s.session k with reader := .returned }) :=
      hi.moveReader (by rw [hr]; simp) (by simp) (by simp)
    by_cases hl : load (s.brokerSessions a) key = some k
    · rw [if_pos hl]
      refine hi₁.setRelay a (s.relay a) _ (Or.inr rfl)
        (fun key' j hj => hi₁.installed a key' j (load_of_delete hj).2) ?_ ?_ ?_
        rfl rfl rfl (Function.update_eq_self a s.relay).symm rfl rfl
      · intro hret
        rw [hi.returned a hret] at hl
        cases hl
      · intro key' j hj
        simp only [muFree, hj] at hmu
        cases hmu
      · rintro j hj (hh | ⟨key', hj'⟩)
        · exact Or.inl hh
        · refine Or.inr ⟨key', ?_⟩
          by_cases hkey : key' = key
          · subst hkey
            have hjk : k = j := Option.some.inj (hl.symm.trans hj')
            subst hjk
            simp only [SessionOwners.setSession, Function.update_self] at hj
            exact absurd hfin hj
          · rw [load_delete_other _ hkey]
            exact hj'
    · rw [if_neg hl, Function.update_eq_self]
      exact hi₁

omit [DecidableEq K] in
/-- An entry of `brokerSessions` that is taken out is closed for good. -/
theorem Placed.forget (hi : Placed s) (pc : RelayPc K Key) (hpc : ∀ key j, pc ≠ .opening key j)
    (hret : pc ≠ .returned) (hone : ∀ key j, pc ≠ .closingOne key j)
    (hh : (s.relay a).holds = none)
    (hl : load (s.brokerSessions a) key = some k) (hf : (s.session k).closer = .finished) :
    Placed { SessionOwners.setRelay s a pc with
      brokerSessions :=
        Function.update s.brokerSessions a (SyncMap.delete (s.brokerSessions a) key) } := by
  refine hi.setRelay a pc _ (Or.inl hpc)
    (fun key' j hj => hi.installed a key' j (load_of_delete hj).2)
    (fun h => absurd h hret) (fun key j h => absurd h (hone key j)) ?_ rfl rfl rfl rfl rfl rfl
  rintro j hj (hh' | ⟨key', hj'⟩)
  · rw [hh] at hh'
    cases hh'
  · refine Or.inr ⟨key', ?_⟩
    by_cases hkey : key' = key
    · subst hkey
      cases hl.symm.trans hj'
      exact absurd hf hj
    · rw [load_delete_other _ hkey]
      exact hj'

/-- The second section of `getOrCreateBrokerSession` puts the new session under
its key; whatever was there is closed for good. -/
theorem Placed.install (hi : Placed s) (h : s.relay a = .opening key k)
    (hl : ∀ k', load (s.brokerSessions a) key = some k' → (s.session k').closer = .finished) :
    Placed { SessionOwners.setRelay (SessionOwners.setSession s k
        { s.session k with reader := .running key }) a .receiving with
      brokerSessions :=
        Function.update s.brokerSessions a (SyncMap.store (s.brokerSessions a) key k) } := by
  obtain ⟨ho, hb, hc, hr⟩ := hi.opening a key k h
  -- in between the relay loop holds the session without opening it
  have hi₁ : Placed (SessionOwners.setRelay s a (.dropping k)) :=
    hi.moveRelay _ nofun nofun nofun fun j hj => Or.inr (by rw [h] at hj; exact hj)
  have hi₂ : Placed (SessionOwners.setSession (SessionOwners.setRelay s a (.dropping k)) k
      { s.session k with reader := .running key }) := by
    refine hi₁.setSession rfl (fun _ _ h => h) (fun _ h => Or.inl h) rfl rfl rfl (fun h => h) ?_
      (fun _ => nofun) (fun _ => ⟨ho, fun hn => ?_, fun _ => hc⟩) nofun (fun h => h)
    · rintro ⟨b, key', hb'⟩
      by_cases hba : b = a
      · subst hba
        simp only [SessionOwners.setRelay, Function.update_self] at hb'
        cases hb'
      · simp only [SessionOwners.setRelay, Function.update_of_ne hba] at hb'
        have hb₂ := (hi.opening b key' k hb').2.1
        rw [hb] at hb₂
        exact absurd (Option.some.inj hb₂).symm hba
    · exact absurd (hb.symm.trans hn) nofun
  refine hi₂.setRelay a .receiving _ (Or.inl nofun) ?_ nofun nofun ?_ rfl rfl rfl ?_ rfl rfl
  · intro key' j hj
    rcases load_of_store hj with ⟨-, rfl⟩ | ⟨-, hj⟩
    · simp [SessionOwners.setSession]
    · exact hi₂.installed a key' j hj
  · rintro j hj (hh | ⟨key', hj'⟩)
    · simp only [SessionOwners.setSession, SessionOwners.setRelay, Function.update_self] at hh
      cases hh
      exact Or.inr ⟨key, load_store_self _ _ _⟩
    · refine Or.inr ?_
      by_cases hkey : key' = key
      · subst hkey
        by_cases hjk : j = k
        · exact ⟨key', by rw [hjk]; exact load_store_self _ _ _⟩
        · simp only [SessionOwners.setSession, Function.update_of_ne hjk] at hj
          exact absurd (hl j hj') hj
      · exact ⟨key', by rw [load_store_other _ _ hkey]; exact hj'⟩
  · simp [SessionOwners.setRelay, SessionOwners.setSession]

theorem placed_relay {e : RelayEvent K Id Key} (hi : Placed s) (h : relayStep s a e = some t) :
    Placed t := by
  cases relayStep_move h with
  | missing ha =>
    exact hi.moveRelay _ (by simp) (by simp) (by simp) fun j hj => by rw [ha] at hj; cases hj
  | stale ha hl hclosed =>
    exact hi.forget _ (by simp) (by simp) (by simp) (by rw [ha]; rfl) hl
      (finished_of_udpIsClosed hclosed)
  | found => exact hi
  | @store key k id ha hk =>
    refine @Placed.store _ _ _ _ _ _ _ s _ k hi hk id (some a)
      (Function.update s.relay a (.opening key k)) ?_ ?_ rfl
    · intro b
      by_cases hb : b = a
      · subst hb
        right
        rw [ha, Function.update_self]
        exact ⟨rfl, (by simp), rfl, key, rfl⟩
      · exact Or.inl (Function.update_of_ne hb _ _)
    · intro b hb
      cases hb
      rw [Function.update_self]
      rfl
  | reject ha => exact hi.discard ha (Or.inl rfl)
  | rejected ha hf | dropped ha hf =>
    refine hi.moveRelay _ (by simp) (by simp) (by simp) fun j hj => ?_
    rw [ha] at hj
    cases hj
    exact Or.inl hf
  | install ha ho hl => exact hi.install ha fun k' hk' => finished_of_udpIsClosed (hl k' hk')
  | superfluous ha => exact hi.discard ha (Or.inr rfl)
  | finish ha =>
    exact hi.moveRelay _ (by simp) (by simp) (by simp) fun j hj => by rw [ha] at hj; cases hj
  | @closeNext key k ha hl =>
    have hi₁ := hi.udpClose (hi.installed a key k hl)
    refine hi₁.setRelay a (.closingOne key k) (s.brokerSessions a) (Or.inl (by simp)) (hi₁.installed a)
      (by simp) ?_ ?_ rfl rfl rfl rfl rfl (Function.update_eq_self a s.brokerSessions).symm
    · intro key' j hj
      cases hj
      exact hl
    · rintro j - (hh | hm)
      · rw [show (SessionOwners.setSession s k (s.session k).udpClose).relay a = s.relay a from rfl,
          ha] at hh
        cases hh
      · exact Or.inr hm
  | closedOne ha hf =>
    exact hi.forget _ (by simp) (by simp) (by simp) (by rw [ha]; rfl) (hi.closing a _ _ ha) hf
  | returned ha hm =>
    exact hi.moveRelay _ (by simp) (fun _ => hm) (by simp) fun j hj => by rw [ha] at hj; cases hj

theorem placed_step {e : Event K A Id Key} (hi : Placed s) (h : step s e = some t) : Placed t := by
  cases e with
  | owner k e => exact placed_owner hi h
  | loop e => exact placed_loop hi h
  | relay a e => exact placed_relay hi h
  | reader k e => exact placed_reader hi h
  | written =>
    simp only [step] at h
    obtain ⟨r, hr, rfl⟩ := Option.map_eq_some_iff.mp h
    exact hi.frame rfl (fun _ _ h => h) (fun _ h => h) rfl rfl rfl

/-! ## Nobody is closed in silence -/

/-- The end of the session is known to the broker, or `closeBrokerSession` is about
to make it known. -/
def Settled (s : State K A Id Key) (k : K) : Prop :=
  (s.session k).Ended ∨ Told s k ∨ (s.session k).closer = .checked

structure Honest (s : State K A Id Key) : Prop where
  done : ∀ k, (s.session k).done = true → Settled s k
  closer : ∀ k, (s.session k).closer ≠ .notCalled → Settled s k
  closing : ∀ k err, s.loop = .closing k err → Settled s k
  handling : ∀ k cmd payload, s.loop = .handling k cmd payload →
    (cmd, payload) ∈ (s.session k).received

omit [DecidableEq K] [DecidableEq A] [DecidableEq Id] [DecidableEq Key] in
theorem honest_initial : Honest (initial K A Id Key) where
  done := fun k h => by cases h
  closer := fun k h => absurd rfl h
  closing := fun k err h => by cases h
  handling := fun k cmd payload h => by cases h

omit [DecidableEq A] [DecidableEq Id] [DecidableEq Key] in
/-- A step that changes one session, takes nothing back from the link, and settles
that session before anybody relies on it. -/
theorem Honest.update (hi : Honest s) {x : Session Id Key}
    (hsession : t.session = Function.update s.session k x)
    (hsent : ∀ f, f ∈ s.writeCh.sent → f ∈ t.writeCh.sent)
    (hk : x.done = true ∨ x.closer ≠ .notCalled ∨ (∃ err, t.loop = .closing k err) → Settled t k)
    (hclosing : ∀ j err, j ≠ k → t.loop = .closing j err → s.loop = .closing j err)
    (hhandling : ∀ j cmd payload, t.loop = .handling j cmd payload →
      j = k ∧ (cmd, payload) ∈ x.received ∨ j ≠ k ∧ s.loop = .handling j cmd payload) :
    Honest t := by
  have hself : t.session k = x := by rw [hsession, Function.update_self]
  have hother : ∀ {j}, j ≠ k → t.session j = s.session j := fun hne => by
    rw [hsession, Function.update_of_ne hne]
  have hold : ∀ {j}, j ≠ k → Settled s j → Settled t j := by
    intro j hj hs
    unfold Settled at hs ⊢
    rw [hother hj]
    exact Or.imp_right (Or.imp_left (hsent _)) hs
  constructor
  case done =>
    intro j hd
    by_cases hj : j = k
    · subst hj
      exact hk (Or.inl (hself ▸ hd))
    · rw [hother hj] at hd
      exact hold hj (hi.done j hd)
  case closer =>
    intro j hc
    by_cases hj : j = k
    · subst hj
      exact hk (Or.inr (Or.inl (hself ▸ hc)))
    · rw [hother hj] at hc
      exact hold hj (hi.closer j hc)
  case closing =>
    intro j err hl
    by_cases hj : j = k
    · subst hj
      exact hk (Or.inr (Or.inr ⟨err, hl⟩))
    · exact hold hj (hi.closing j err (hclosing j err hj hl))
  case handling =>
    intro j cmd payload hl
    rcases hhandling j cmd payload hl with ⟨rfl, hm⟩ | ⟨hj, hl⟩
    · rw [hself]
      exact hm
    · rw [hother hj]
      exact hi.handling j cmd payload hl

omit [DecidableEq A] in
/-- A new session has nothing to settle. -/
theorem Honest.store (hi : Honest s) (hp : Placed s) (hk : (s.session k).owner = .notCalled) {id : Id}
    (hsession : t.session = Function.update s.session k
      { unopened Id Key with id := some id, owner := .stored })
    (hw : t.writeCh = s.writeCh) (hloop : t.loop = s.loop) : Honest t := by
  have hon := (hp.unused hk).2.1
  refine hi.update hsession (fun f hf => hw ▸ hf) ?_ (fun j err _ hl => hloop ▸ hl) ?_
  · rintro (hd | hc | ⟨err, hl⟩)
    · cases hd
    · exact absurd rfl hc
    · rw [hloop] at hl
      exact absurd (by rw [hl]; rfl) hon
  · intro j cmd payload hl
    rw [hloop] at hl
    refine Or.inr ⟨?_, hl⟩
    rintro rfl
    exact absurd (by rw [hl]; rfl) hon

omit [DecidableEq A] [DecidableEq Id] [DecidableEq Key] in
/-- A change to one session that its end does not depend on. -/
theorem Honest.touch (hi : Honest s) {x : Session Id Key}
    (hsession : t.session = Function.update s.session k x)
    (hsent : ∀ f, f ∈ s.writeCh.sent → f ∈ t.writeCh.sent)
    (hloop : t.loop = s.loop ∨ t.loop = .idle)
    (hdone : x.done = (s.session k).done) (hcloser : x.closer = (s.session k).closer)
    (hreceived : x.received = (s.session k).received) : Honest t := by
  have hself : t.session k = x := by rw [hsession, Function.update_self]
  have hsettled : Settled s k → Settled t k := by
    intro hs
    unfold Settled Session.Ended at hs ⊢
    rw [hself, hreceived, hcloser]
    exact Or.imp_right (Or.imp_left (hsent _)) hs
  refine hi.update hsession hsent ?_ ?_ ?_
  · rintro (hd | hc | ⟨err, hl⟩)
    · exact hsettled (hi.done k (hdone ▸ hd))
    · exact hsettled (hi.closer k (hcloser ▸ hc))
    · rcases hloop with he | he <;> rw [he] at hl
      · exact hsettled (hi.closing k err hl)
      · cases hl
  · intro j err _ hl
    rcases hloop with he | he <;> rw [he] at hl
    · exact hl
    · cases hl
  · intro j cmd payload hl
    rcases hloop with he | he <;> rw [he] at hl
    · by_cases hj : j = k
      · subst hj
        rw [hreceived]
        exact Or.inl ⟨rfl, hi.handling j cmd payload hl⟩
      · exact Or.inr ⟨hj, hl⟩
    · cases hl

omit [DecidableEq K] [DecidableEq A] [DecidableEq Id] [DecidableEq Key] in
/-- The sessions stay as they are. -/
theorem Honest.frame (hi : Honest s) (hsession : t.session = s.session)
    (hsent : ∀ f, f ∈ s.writeCh.sent → f ∈ t.writeCh.sent)
    (hloop : t.loop = s.loop ∨ t.loop = .idle ∨
      ∃ k err, t.loop = .closing k err ∧ Settled s k) : Honest t := by
  have hsettled : ∀ {j}, Settled s j → Settled t j := by
    intro j hs
    unfold Settled at hs ⊢
    rw [hsession]
    exact Or.imp_right (Or.imp_left (hsent _)) hs
  refine ⟨fun j hd => ?_, fun j hc => ?_, fun j err hl => ?_, fun j cmd payload hl => ?_⟩
  · rw [hsession] at hd
    exact hsettled (hi.done j hd)
  · rw [hsession] at hc
    exact hsettled (hi.closer j hc)
  · rcases hloop with he | he | ⟨k, err', he, hs⟩ <;> rw [he] at hl
    · exact hsettled (hi.closing j err hl)
    · cases hl
    · cases hl
      exact hsettled hs
  · rw [hsession]
    rcases hloop with he | he | ⟨k, err', he, hs⟩ <;> rw [he] at hl
    · exact hi.handling j cmd payload hl
    · cases hl
    · cases hl

omit [DecidableEq A] [DecidableEq Key] in
theorem honest_loop {e : LoopEvent Id} (hi : Honest s) (hC : Announced s (.loop e))
    (h : loopStep s e = some t) : Honest t := by
  cases loopStep_move h with
  | notFound => exact hi
  | @frame id cmd payload k hidle hl =>
    have hmono : Settled s k → ∀ {u : State K A Id Key},
        u.session k = { s.session k with received := (s.session k).received ++ [(cmd, payload)] } →
        u.writeCh = s.writeCh → Settled u k := by
      rintro (⟨p, hp⟩ | ht | hc) u hu hw
      · refine Or.inl ⟨p, ?_⟩
        rw [hu]
        exact Or.imp (List.mem_append_left _) (List.mem_append_left _) hp
      · refine Or.inr (Or.inl ?_)
        unfold Told
        rw [hw]
        exact ht
      · refine Or.inr (Or.inr ?_)
        rw [hu]
        exact hc
    refine hi.update rfl (fun _ h => h) ?_ (fun _ _ _ h => by cases h) ?_
    · rintro (hd | hc | ⟨err, he⟩)
      · exact hmono (hi.done k hd) (Function.update_self _ _ _) rfl
      · exact hmono (hi.closer k hc) (Function.update_self _ _ _) rfl
      · cases he
    · intro j cmd' payload' hl
      cases hl
      exact Or.inl ⟨rfl, by simp⟩
  | signalConnected | queueData => exact hi.touch rfl (fun _ h => h) (Or.inr rfl) rfl rfl rfl
  | dropData | ignoreFrame => exact hi.frame rfl (fun _ h => h) (Or.inr (Or.inl rfl))
  | @overflow k cmd payload hl =>
    refine hi.frame rfl (fun _ h => h) (Or.inr (Or.inr ⟨k, _, rfl, ?_⟩))
    exact hi.closer k (hC k cmd payload hl)
  | @remoteClose k payload hl =>
    refine hi.frame rfl (fun _ h => h) (Or.inr (Or.inr ⟨k, _, rfl, Or.inl ⟨payload, ?_⟩⟩))
    exact Or.inl (hi.handling k _ _ hl)
  | @remoteError k text hl =>
    refine hi.frame rfl (fun _ h => h) (Or.inr (Or.inr ⟨k, _, rfl, Or.inl ⟨text, ?_⟩⟩))
    exact Or.inr (hi.handling k _ _ hl)
  | @close k err hl =>
    have hs := hi.closing k err hl
    refine hi.update rfl (fun _ h => h) (fun _ => ?_) (fun _ _ _ h => by cases h)
      (fun _ _ _ h => by cases h)
    unfold Settled Session.Ended Told at hs ⊢
    simpa [setSession] using hs

omit [DecidableEq K] [DecidableEq A] [DecidableEq Id] [DecidableEq Key] in
theorem Settled.unchecked (h : Settled s k) (hc : (s.session k).closer ≠ .checked) :
    (s.session k).Ended ∨ Told s k := by
  rcases h with h | h | h
  · exact Or.inl h
  · exact Or.inr h
  · exact absurd h hc

omit [DecidableEq A] [DecidableEq Id] [DecidableEq Key] in
/-- `closeBrokerSession` moves on, or closes, a session whose end is known. -/
theorem Honest.settled (hi : Honest s) {x : Session Id Key}
    (hsession : t.session = Function.update s.session k x)
    (hsent : ∀ f, f ∈ s.writeCh.sent → f ∈ t.writeCh.sent) (hloop : t.loop = s.loop)
    (hreceived : x.received = (s.session k).received)
    (hk : ((s.session k).Ended ∨ Told t k) ∨ x.closer = .checked) : Honest t := by
  have hself : t.session k = x := by rw [hsession, Function.update_self]
  refine hi.update hsession hsent (fun _ => ?_) (fun j err _ hl => hloop ▸ hl) ?_
  · rcases hk with (he | ht) | hc
    · refine Or.inl ?_
      unfold Session.Ended at he ⊢
      rw [hself, hreceived]
      exact he
    · exact Or.inr (Or.inl ht)
    · exact Or.inr (Or.inr (by rw [hself]; exact hc))
  · intro j cmd payload hl
    rw [hloop] at hl
    by_cases hj : j = k
    · subst hj
      rw [hreceived]
      exact Or.inl ⟨rfl, hi.handling j cmd payload hl⟩
    · exact Or.inr ⟨hj, hl⟩

omit [DecidableEq A] [DecidableEq Id] [DecidableEq Key] in
/-- The check in `closeBrokerSession`: an open session will be announced, a closed
one has been. -/
theorem Honest.startClose (hi : Honest s) {x : Session Id Key}
    (hc : (s.session k).closer = .notCalled)
    (hsession : t.session = Function.update s.session k x)
    (hx : x.closer = (s.session k).startClose.closer)
    (hreceived : x.received = (s.session k).received)
    (hw : t.writeCh = s.writeCh) (hloop : t.loop = s.loop) : Honest t := by
  refine hi.settled hsession (fun f hf => hw ▸ hf) hloop hreceived ?_
  rw [hx]
  unfold Session.startClose
  by_cases hd : (s.session k).done = true
  · left
    unfold Told
    rw [hw]
    exact (hi.done k hd).unchecked (by rw [hc]; exact nofun)
  · right
    simp [hd]

omit [DecidableEq A] in
theorem Honest.udpClose (hi : Honest s) (hp : Placed s) (hr : (s.session k).reader ≠ .notStarted)
    (hsession : t.session = Function.update s.session k (s.session k).udpClose)
    (hw : t.writeCh = s.writeCh) (hloop : t.loop = s.loop) : Honest t := by
  unfold Session.udpClose at hsession
  split at hsession
  · exact hi.touch hsession (fun f hf => hw ▸ hf) (Or.inl hloop) rfl rfl rfl
  · rename_i hu
    exact hi.startClose ((hp.reading k hr).2.2 (by simpa using hu)) hsession rfl rfl hw hloop

omit [DecidableEq K] [DecidableEq A] [DecidableEq Id] [DecidableEq Key] in
theorem sent_push (s : State K A Id Key) (p : K × Packet) :
    ∀ f, f ∈ s.writeCh.sent → f ∈ (s.writeCh.push p).sent := by
  intro f hf
  simp [hf]

omit [DecidableEq A] in
theorem honest_owner {e : OwnerEvent Id} (hi : Honest s) (hp : Placed s)
    (h : ownerStep s k e = some t) : Honest t := by
  cases ownerStep_move h with
  | store hk => exact hi.store hp hk rfl rfl rfl
  | requested => exact hi.touch rfl (sent_push s _) (Or.inl rfl) rfl rfl rfl
  | connectOk | connectFailed | connectClosed | take | leave =>
    exact hi.touch rfl (fun _ h => h) (Or.inl rfl) rfl rfl rfl
  | send => exact hi.frame rfl (sent_push s _) (Or.inl rfl)
  | closeCheck ho hb hc => exact hi.startClose hc rfl rfl rfl rfl rfl
  | closeSend =>
    refine hi.settled rfl (sent_push s _) rfl rfl (Or.inl (Or.inr ?_))
    simp [Told]
  | closeDelete hc =>
    refine hi.settled rfl (fun _ h => h) rfl rfl (Or.inl ?_)
    exact (hi.closer k (by rw [hc]; exact nofun)).unchecked (by rw [hc]; exact nofun)
  | closeDone hc =>
    refine hi.settled rfl (fun _ h => h) rfl (by simp) (Or.inl ?_)
    exact (hi.closer k (by rw [hc]; exact nofun)).unchecked (by rw [hc]; exact nofun)

theorem honest_reader {e : ReaderEvent} (hi : Honest s) (hp : Placed s)
    (h : readerStep s k e = some t) : Honest t := by
  cases readerStep_move h with
  | close hr => exact hi.udpClose hp (by rw [hr]; exact nofun) rfl rfl rfl
  | ended | closed | forget => exact hi.touch rfl (fun _ h => h) (Or.inl rfl) rfl rfl rfl

theorem honest_relay {e : RelayEvent K Id Key} (hi : Honest s) (hp : Placed s)
    (h : relayStep s a e = some t) : Honest t := by
  cases relayStep_move h with
  | found => exact hi
  | store ha hk => exact hi.store hp hk rfl rfl rfl
  | @reject key k ha | @superfluous key k _ ha =>
    exact hi.startClose (hp.opening a key k ha).2.2.1 rfl rfl rfl rfl rfl
  | install => exact hi.touch rfl (fun _ h => h) (Or.inl rfl) rfl rfl rfl
  | @closeNext key k ha hl => exact hi.udpClose hp (hp.installed a key k hl) rfl rfl rfl
  | missing | stale | rejected | dropped | finish | closedOne | returned =>
    exact hi.frame rfl (fun _ h => h) (Or.inl rfl)

/-! ## Runs -/

structure Inv (s : State K A Id Key) : Prop where
  placed : Placed s
  honest : Honest s

theorem inv_step {e : Event K A Id Key} (hi : Inv s) (hC : Announced s e)
    (h : step s e = some t) : Inv t := by
  refine ⟨placed_step hi.placed h, ?_⟩
  cases e with
  | owner k e => exact honest_owner hi.honest hi.placed h
  | loop e => exact honest_loop hi.honest hC h
  | relay a e => exact honest_relay hi.honest hi.placed h
  | reader k e => exact honest_reader hi.honest hi.placed h
  | written =>
    simp only [step] at h
    obtain ⟨r, hr, rfl⟩ := Option.map_eq_some_iff.mp h
    refine hi.honest.frame rfl (fun f hf => ?_) (Or.inl rfl)
    rw [(Fifo.pop_some hr).1]
    exact hf

omit [DecidableEq K] [DecidableEq A] in
/-- An owner that has returned has been through `closeBrokerSession`. -/
theorem Placed.finished_of_returned (hi : Placed s) (h : OwnerReturned s k) :
    (s.session k).closer = .finished := by
  unfold OwnerReturned at h
  split at h
  · exact h
  · rename_i a ha
    rcases hi.accounted k a ha with hf | hh | ⟨key, hl⟩
    · exact hf
    · rw [h] at hh
      cases hh
    · rw [hi.returned a h] at hl
      cases hl

omit [DecidableEq K] [DecidableEq A] in
theorem Inv.noneAbandoned (hi : Inv s) : NoneAbandoned s := by
  intro k hr _ he
  have hf := hi.placed.finished_of_returned hr
  have hs := hi.honest.closer k (by rw [hf]; exact nofun)
  exact (hs.unchecked (by rw [hf]; exact nofun)).resolve_left he

/-- In every run in which `readLoop` gives up no session its owner has not begun to
close, every session closed before the broker ended it is announced to the broker
by the time its owner returns. -/
theorem none_abandoned_of_announced {es : List (Event K A Id Key)}
    (h : Meets step Announced (initial K A Id Key) es) :
    Always step NoneAbandoned (initial K A Id Key) es :=
  always_of_invariant (fun _ _ _ hi hC hs => inv_step hi hC hs) (fun _ hi => hi.noneAbandoned)
    ⟨placed_initial, honest_initial⟩ h

/-- A TCP session its client leaves. -/
def leftRun : List (Event Nat Nat Nat Nat) :=
  [.owner 0 (.store 0), .owner 0 (.requested []), .loop (.frame 0 .connected []),
   .loop .signalConnected, .owner 0 .connectOk, .owner 0 .leave, .owner 0 .closeCheck,
   .owner 0 .closeSend, .owner 0 .closeDelete, .owner 0 .closeDone]

/-- A client that does not read: the data queue fills up, `readLoop` closes the
session, and `closeBrokerSession` then finds it closed. -/
def overflowRun : List (Event Nat Nat Nat Nat) :=
  ([.owner 0 (.store 0), .owner 0 (.requested []), .loop (.frame 0 .connected []),
    .loop .signalConnected, .owner 0 .connectOk] : List (Event Nat Nat Nat Nat)) ++
  ((List.replicate dataQueueSize [.loop (.frame 0 .data [7]), .loop .queueData]).flatten :
    List (Event Nat Nat Nat Nat)) ++
  ([.loop (.frame 0 .data [7]), .loop .overflow, .loop .close, .owner 0 .leave,
    .owner 0 .closeCheck] : List (Event Nat Nat Nat Nat))

theorem none_abandoned_left :
    Always step NoneAbandoned (initial Nat Nat Nat Nat) leftRun := by
  refine none_abandoned_of_announced (meets_of_mem ?_)
  intro e he s
  simp only [leftRun, List.mem_cons, List.not_mem_nil, or_false] at he
  rcases he with rfl | rfl | rfl | rfl | rfl | rfl | rfl | rfl | rfl | rfl <;> trivial

theorem session_abandoned :
    ∃ s, run step (initial Nat Nat Nat Nat) overflowRun = some s ∧ ¬NoneAbandoned s := by
  have hrun : (run step (initial Nat Nat Nat Nat) overflowRun).map (fun s =>
      ((s.session 0).closer, (s.session 0).done, (s.session 0).received, s.openedBy 0,
        s.writeCh.sent)) =
      some (.finished, true, (.connected, []) :: List.replicate 33 (.data, [7]), none,
        [(0, (.connect, []))]) := by rfl
  obtain ⟨s, hs, hv⟩ := Option.map_eq_some_iff.mp hrun
  simp only [Prod.mk.injEq] at hv
  obtain ⟨hcloser, hdone, hreceived, hopened, hsent⟩ := hv
  refine ⟨s, hs, fun h => ?_⟩
  have hret : OwnerReturned s 0 := by
    unfold OwnerReturned
    rw [hopened]
    exact hcloser
  have htold := h 0 hret hdone fun ⟨payload, hp⟩ => by
    rw [hreceived] at hp
    simp at hp
  unfold Told at htold
  rw [hsent] at htold
  simp at htold

end SplitProxy.SessionOwners
