import Mathlib.Logic.Function.Basic
import SplitProxy.Runs
import SplitProxy.Fifo
import SplitProxy.Wire
import SplitProxy.Sweep

/-!
# The broker's session table

The map from session ids to their two endpoints, and everything that writes it:
the `proxyHandler` of each proxy connection with the `openProxySession` calls it
makes, `ProxyConnection.close` with the senders it spawns, the `workerReader` of
each worker and `removeWorker`. Map operations, channel operations and closing a
`done` channel are the steps; which ready case a select takes, what the sockets
deliver and which worker `getWorker` finds is the choice of event. A running
broker is meant throughout: shutdown is not part of the model. Requests that
`openProxySession` refuses on their mode or the length of their id touch nothing
and are left out, so `Id` stands for the ids of 36 bytes.
-/
namespace SplitProxy.SessionTable

open Runs SyncMap

/-- `make(chan []byte, 4096)` of a worker. -/
def workerQueueSize : Nat := 4096

/-- `make(chan []byte, 2048)` in `newProxyConnection`. -/
def proxyQueueSize : Nat := 2048

/-- A session value; `serial` counts the stores, so two sessions are the same
pointer exactly when they are equal. -/
structure Session (P W : Type) where
  proxy : P
  worker : W
  mode : Mode
  serial : Nat
  deriving DecidableEq, Repr

structure BrokerRequest (Id : Type) where
  id : Id
  mode : Mode
  target : Payload
  route : Payload
  deriving DecidableEq, Repr

/-- The ways `sendToWorker` fails. -/
inductive SendError where
  | workerDisconnected
  | workerSendTimeout
  deriving DecidableEq, Repr

inductive OpenError where
  | noWorkers (route : Payload)
  | send (err : SendError)
  deriving DecidableEq, Repr

def ascii (s : String) : Payload := s.toUTF8.toList

/-- The text `sendProxySessionError` puts into a `CmdError` frame. -/
def OpenError.text : OpenError → Payload
  | .noWorkers route => ascii "no workers available for group=" ++ route
  | .send .workerDisconnected => ascii "worker disconnected"
  | .send .workerSendTimeout => ascii "worker send timeout"

/-- A frame in a send channel, with the session it was made for. -/
structure Enqueued (P W Id : Type) where
  session : Option (Session P W)
  frame : Frame Id
  deriving DecidableEq, Repr

/-- Where the `proxyHandler` of a connection stands. -/
inductive HandlerPc (P W Id : Type) where
  | reading
  -- openProxySession
  | checked (req : BrokerRequest Id)
  | selected (req : BrokerRequest Id) (w : W)
  | connecting (id : Id) (x : Session P W) (target : Payload)
  | connectFailed (id : Id) (x : Session P W) (err : SendError)
  | reporting (id : Id) (x : Option (Session P W)) (err : OpenError)
  -- a data frame
  | sending (id : Id) (x : Session P W) (cmd : Command) (payload : Payload)
  | sendFailed (id : Id) (x : Session P W) (err : SendError)
  | refusing (id : Id) (x : Session P W)
  -- a CmdClose frame
  | sendingClose (id : Id) (x : Session P W)
  | closing (id : Id) (x : Session P W)
  | returned
  deriving DecidableEq, Repr

/-- The one execution of `ProxyConnection.close`. -/
inductive ClosePc (P W Id : Type) where
  | notCalled
  | doneClosed
  | scanning (r : Sweep Id (Session P W))
  | deleting (r : Sweep Id (Session P W)) (id : Id) (x : Session P W)
  | finished
  deriving DecidableEq, Repr

/-- The one execution of `removeWorker`. -/
inductive RemovePc (P W Id : Type) where
  | notCalled
  | groupLeft
  | scanning (r : Sweep Id (Session P W))
  | notifying (r : Sweep Id (Session P W)) (id : Id) (x : Session P W)
  | deleting (r : Sweep Id (Session P W)) (id : Id) (x : Session P W)
  | scanned
  | finished
  deriving DecidableEq, Repr

inductive ReaderPc (P W Id : Type) where
  | reading
  | forwarding (id : Id) (x : Session P W) (cmd : Command) (payload : Payload)
  | writeFailed (id : Id) (x : Session P W)
  | forwardingClose (id : Id) (x : Session P W) (payload : Payload)
  | closing (id : Id) (x : Session P W)
  | returned
  deriving DecidableEq, Repr

structure State (P W Id : Type) where
  sessions : Entries Id (Session P W)
  /-- number of stores so far -/
  serial : Nat
  handler : P → HandlerPc P W Id
  close : P → ClosePc P W Id
  removal : W → RemovePc P W Id
  reader : W → ReaderPc P W Id
  /-- the `sendToWorker` goroutines of `ProxyConnection.close` -/
  senders : List (Id × Session P W)
  toWorker : W → Fifo (Enqueued P W Id)
  toProxy : P → Fifo (Enqueued P W Id)
  /-- sessions whose connect frame is in the worker's channel -/
  connects : List (Id × Session P W)
  /-- sessions deleted after their connect frame was enqueued -/
  deleted : List (Id × Session P W)
  /-- sessions for which the proxy, or the worker, sent `CmdClose` itself -/
  proxyEnds : List (Id × Session P W)
  workerEnds : List (Id × Session P W)

def initial (P W Id : Type) : State P W Id where
  sessions := []
  serial := 0
  handler := fun _ => .reading
  close := fun _ => .notCalled
  removal := fun _ => .notCalled
  reader := fun _ => .reading
  senders := []
  toWorker := fun _ => .empty
  toProxy := fun _ => .empty
  connects := []
  deleted := []
  proxyEnds := []
  workerEnds := []

inductive HandlerEvent (W Id : Type) where
  | openRequest (req : BrokerRequest Id)
  | getWorker (w : Option W)
  | store
  | connectSent
  | connectAborted (err : SendError)
  | connectDelete
  | reported (ok : Bool)
  | frame (id : Id) (cmd : Command) (payload : Payload)
  | dataSent
  | dataAborted (err : SendError)
  | dataDelete
  | refused (ok : Bool)
  | closeSent
  | closeAborted (err : SendError)
  | closeDelete
  | readFailed
  deriving DecidableEq, Repr

inductive CloseEvent (P W Id : Type) where
  | begin
  | rangeStart
  | visit (id : Id) (x : Session P W)
  | delete
  | rangeEnd
  deriving DecidableEq, Repr

inductive RemoveEvent (P W Id : Type) where
  | begin
  | rangeStart
  | visit (id : Id) (x : Session P W)
  | notified (ok : Bool)
  | delete
  | rangeEnd
  | closeDone
  deriving DecidableEq, Repr

inductive ReaderEvent (Id : Type) where
  | frame (id : Id) (cmd : Command) (payload : Payload)
  | forwarded (ok : Bool)
  | failDelete
  | closeForwarded (ok : Bool)
  | closeDelete
  | readFailed
  deriving DecidableEq, Repr

inductive Event (P W Id : Type) where
  | handler (p : P) (e : HandlerEvent W Id)
  | close (p : P) (e : CloseEvent P W Id)
  | removal (w : W) (e : RemoveEvent P W Id)
  | reader (w : W) (e : ReaderEvent Id)
  | senderSent (id : Id) (x : Session P W)
  | senderAborted (id : Id) (x : Session P W) (err : SendError)
  | workerWriter (w : W)
  | proxyWriter (p : P)
  deriving DecidableEq, Repr

/-! ## The operations -/

def ClosePc.mapScan {P W Id : Type} (f : Scan Id (Session P W) → Scan Id (Session P W)) :
    ClosePc P W Id → ClosePc P W Id
  | .scanning r => .scanning (r.mapScan f)
  | .deleting r id x => .deleting (r.mapScan f) id x
  | pc => pc

def RemovePc.mapScan {P W Id : Type} (f : Scan Id (Session P W) → Scan Id (Session P W)) :
    RemovePc P W Id → RemovePc P W Id
  | .scanning r => .scanning (r.mapScan f)
  | .notifying r id x => .notifying (r.mapScan f) id x
  | .deleting r id x => .deleting (r.mapScan f) id x
  | pc => pc

variable {P W Id : Type} [DecidableEq P] [DecidableEq W] [DecidableEq Id]

section Operations

variable (s : State P W Id)

def setHandler (p : P) (pc : HandlerPc P W Id) : State P W Id :=
  { s with handler := Function.update s.handler p pc }

def setClose (p : P) (pc : ClosePc P W Id) : State P W Id :=
  { s with close := Function.update s.close p pc }

def setRemoval (w : W) (pc : RemovePc P W Id) : State P W Id :=
  { s with removal := Function.update s.removal w pc }

def setReader (w : W) (pc : ReaderPc P W Id) : State P W Id :=
  { s with reader := Function.update s.reader w pc }

/-- `sessions.Store`, seen by every scan in progress. -/
def store (id : Id) (x : Session P W) : State P W Id :=
  { s with
    sessions := SyncMap.store s.sessions id x
    serial := s.serial + 1
    close := fun p => (s.close p).mapScan (·.onStore id x)
    removal := fun w => (s.removal w).mapScan (·.onStore id x) }

/-- `sessions.Delete`, seen by every scan in progress. -/
def delete (id : Id) : State P W Id :=
  { s with
    sessions := SyncMap.delete s.sessions id
    close := fun p => (s.close p).mapScan (·.onDelete id)
    removal := fun w => (s.removal w).mapScan (·.onDelete id)
    deleted := (load s.sessions id).toList.filterMap
      (fun x => if (id, x) ∈ s.connects then some (id, x) else none) ++ s.deleted }

def workerDone (w : W) : Bool := s.removal w = .finished

def proxyDone (p : P) : Bool := s.close p ≠ .notCalled

/-- The send case of the select in `sendToWorker`. -/
def sendWorker (id : Id) (x : Session P W) (cmd : Command) (payload : Payload) :
    Option (State P W Id) :=
  if (s.toWorker x.worker).queue.length < workerQueueSize then
    some { s with toWorker := Function.update s.toWorker x.worker
                    ((s.toWorker x.worker).push ⟨some x, ⟨id, cmd, payload⟩⟩) }
  else none

/-- The other two cases: a closed `done`, or the timer. -/
def sendAborts (w : W) : SendError → Bool
  | .workerDisconnected => workerDone s w
  | .workerSendTimeout => true

/-- `ProxyConnection.write`: the send case, or a closed `done`. -/
def writeProxy (p : P) (x : Option (Session P W)) (f : Frame Id) : Bool → Option (State P W Id)
  | true =>
    if (s.toProxy p).queue.length < proxyQueueSize then
      some { s with toProxy := Function.update s.toProxy p ((s.toProxy p).push ⟨x, f⟩) }
    else none
  | false => if proxyDone s p then some s else none

end Operations

/-- `proxyHandler` and, within it, `openProxySession`. -/
def handlerStep (s : State P W Id) (p : P) : HandlerEvent W Id → Option (State P W Id)
  | .openRequest req =>
    if s.handler p = .reading then
      match load s.sessions req.id with
      | some _ => some s
      | none => some (setHandler s p (.checked req))
    else none
  | .getWorker w =>
    match s.handler p, w with
    | .checked req, some w => some (setHandler s p (.selected req w))
    | .checked req, none => some (setHandler s p (.reporting req.id none (.noWorkers req.route)))
    | _, _ => none
  | .store =>
    match s.handler p with
    | .selected req w =>
      let x := ⟨p, w, req.mode, s.serial⟩
      some (setHandler (store s req.id x) p (.connecting req.id x req.target))
    | _ => none
  | .connectSent =>
    match s.handler p with
    | .connecting id x target =>
      (sendWorker s id x x.mode.connectCommand target).map
        (fun t => { setHandler t p .reading with connects := (id, x) :: t.connects })
    | _ => none
  | .connectAborted err =>
    match s.handler p with
    | .connecting id x _ =>
      if sendAborts s x.worker err then some (setHandler s p (.connectFailed id x err)) else none
    | _ => none
  | .connectDelete =>
    match s.handler p with
    | .connectFailed id x err =>
      some (setHandler (delete s id) p (.reporting id (some x) (.send err)))
    | _ => none
  | .reported ok =>
    match s.handler p with
    | .reporting id x err =>
      (writeProxy s p x ⟨id, .error, err.text⟩ ok).map (fun t => setHandler t p .reading)
    | _ => none
  | .frame id cmd payload =>
    if s.handler p = .reading then
      match load s.sessions id with
      | none => some s
      | some x =>
        if x.proxy = p then
          match cmd with
          | .data | .udpData => some (setHandler s p (.sending id x cmd payload))
          | .close =>
            some { setHandler s p (.sendingClose id x) with proxyEnds := (id, x) :: s.proxyEnds }
          | _ => some s
        else some s
    else none
  | .dataSent =>
    match s.handler p with
    | .sending id x cmd payload =>
      (sendWorker s id x cmd payload).map (fun t => setHandler t p .reading)
    | _ => none
  | .dataAborted err =>
    match s.handler p with
    | .sending id x _ _ =>
      if sendAborts s x.worker err then some (setHandler s p (.sendFailed id x err)) else none
    | _ => none
  | .dataDelete =>
    match s.handler p with
    | .sendFailed id x _ => some (setHandler (delete s id) p (.refusing id x))
    | _ => none
  | .refused ok =>
    match s.handler p with
    | .refusing id x =>
      (writeProxy s p (some x) ⟨id, .close, []⟩ ok).map (fun t => setHandler t p .reading)
    | _ => none
  | .closeSent =>
    match s.handler p with
    | .sendingClose id x =>
      (sendWorker s id x .close []).map (fun t => setHandler t p (.closing id x))
    | _ => none
  | .closeAborted err =>
    match s.handler p with
    | .sendingClose id x =>
      if sendAborts s x.worker err then some (setHandler s p (.closing id x)) else none
    | _ => none
  | .closeDelete =>
    match s.handler p with
    | .closing id _ => some (setHandler (delete s id) p .reading)
    | _ => none
  | .readFailed =>
    if s.handler p = .reading then some (setHandler s p .returned) else none

def closeStep (s : State P W Id) (p : P) : CloseEvent P W Id → Option (State P W Id)
  | .begin => if s.close p = .notCalled then some (setClose s p .doneClosed) else none
  | .rangeStart =>
    if s.close p = .doneClosed then
      some (setClose s p (.scanning ⟨Scan.start s.sessions, s.serial⟩))
    else none
  | .visit id x =>
    match s.close p with
    | .scanning r =>
      (r.scan.visit s.sessions id x).map (fun d =>
        if x.proxy = p then
          { setClose s p (.deleting { r with scan := d } id x) with
            senders := (id, x) :: s.senders }
        else setClose s p (.scanning { r with scan := d }))
    | _ => none
  | .delete =>
    match s.close p with
    | .deleting r id _ =>
      some (setClose (delete s id) p (.scanning { r with scan := r.scan.onDelete id }))
    | _ => none
  | .rangeEnd =>
    match s.close p with
    | .scanning r => if r.scan.ended then some (setClose s p .finished) else none
    | _ => none

def removeStep (s : State P W Id) (w : W) : RemoveEvent P W Id → Option (State P W Id)
  | .begin => if s.removal w = .notCalled then some (setRemoval s w .groupLeft) else none
  | .rangeStart =>
    if s.removal w = .groupLeft then
      some (setRemoval s w (.scanning ⟨Scan.start s.sessions, s.serial⟩))
    else none
  | .visit id x =>
    match s.removal w with
    | .scanning r =>
      (r.scan.visit s.sessions id x).map (fun d =>
        if x.worker = w then setRemoval s w (.notifying { r with scan := d } id x)
        else setRemoval s w (.scanning { r with scan := d }))
    | _ => none
  | .notified ok =>
    match s.removal w with
    | .notifying r id x =>
      (writeProxy s x.proxy (some x) ⟨id, .close, []⟩ ok).map
        (fun t => setRemoval t w (.deleting r id x))
    | _ => none
  | .delete =>
    match s.removal w with
    | .deleting r id _ =>
      some (setRemoval (delete s id) w (.scanning { r with scan := r.scan.onDelete id }))
    | _ => none
  | .rangeEnd =>
    match s.removal w with
    | .scanning r => if r.scan.ended then some (setRemoval s w .scanned) else none
    | _ => none
  | .closeDone => if s.removal w = .scanned then some (setRemoval s w .finished) else none

def readerStep (s : State P W Id) (w : W) : ReaderEvent Id → Option (State P W Id)
  | .frame id cmd payload =>
    if s.reader w = .reading then
      match load s.sessions id with
      | none => some s
      | some x =>
        if x.worker = w then
          match cmd with
          | .data | .udpData | .connected =>
            some (setReader s w (.forwarding id x cmd payload))
          | .close =>
            some { setReader s w (.forwardingClose id x payload) with
                   workerEnds := (id, x) :: s.workerEnds }
          | _ => some s
        else some s
    else none
  | .forwarded ok =>
    match s.reader w with
    | .forwarding id x cmd payload =>
      (writeProxy s x.proxy (some x) ⟨id, cmd, payload⟩ ok).map
        (fun t => setReader t w (if ok then .reading else .writeFailed id x))
    | _ => none
  | .failDelete =>
    match s.reader w with
    | .writeFailed id _ => some (setReader (delete s id) w .reading)
    | _ => none
  | .closeForwarded ok =>
    match s.reader w with
    | .forwardingClose id x payload =>
      (writeProxy s x.proxy (some x) ⟨id, .close, payload⟩ ok).map
        (fun t => setReader t w (.closing id x))
    | _ => none
  | .closeDelete =>
    match s.reader w with
    | .closing id _ => some (setReader (delete s id) w .reading)
    | _ => none
  | .readFailed =>
    if s.reader w = .reading then some (setReader s w .returned) else none

def step (s : State P W Id) : Event P W Id → Option (State P W Id)
  | .handler p e => handlerStep s p e
  | .close p e => closeStep s p e
  | .removal w e => removeStep s w e
  | .reader w e => readerStep s w e
  | .senderSent id x =>
    if (id, x) ∈ s.senders then
      (sendWorker s id x .close []).map (fun t => { t with senders := t.senders.erase (id, x) })
    else none
  | .senderAborted id x err =>
    if (id, x) ∈ s.senders ∧ sendAborts s x.worker err = true then
      some { s with senders := s.senders.erase (id, x) }
    else none
  | .workerWriter w =>
    (s.toWorker w).pop.map (fun r => { s with toWorker := Function.update s.toWorker w r.2 })
  | .proxyWriter p =>
    (s.toProxy p).pop.map (fun r => { s with toProxy := Function.update s.toProxy p r.2 })

/-! ## What the operations do -/

/-- The session an `openProxySession` call in progress has stored, until its
connect frame is out or its own cleanup is done. -/
def HandlerPc.opens : HandlerPc P W Id → Option (Id × Session P W)
  | .connecting id x _ => some (id, x)
  | .connectFailed id x _ => some (id, x)
  | _ => none

/-- Both states hold the same table, and no cleanup has moved. -/
structure SameTable (s t : State P W Id) : Prop where
  sessions : t.sessions = s.sessions
  serial : t.serial = s.serial
  close : t.close = s.close
  removal : t.removal = s.removal

omit [DecidableEq P] [DecidableEq W] [DecidableEq Id] in
theorem SameTable.refl (s : State P W Id) : SameTable s s := ⟨rfl, rfl, rfl, rfl⟩

variable {s t : State P W Id} {id : Id} {x : Session P W} {cmd : Command} {payload : Payload}
  {p : P} {w : W}

omit [DecidableEq P] [DecidableEq Id] in
/-- A successful send adds one frame to the worker's channel and changes nothing else. -/
theorem sendWorker_some (h : sendWorker s id x cmd payload = some t) :
    t = { s with toWorker := t.toWorker } ∧
      ⟨some x, ⟨id, cmd, payload⟩⟩ ∈ (t.toWorker x.worker).sent ∧
      ∀ v f, f ∈ (s.toWorker v).sent → f ∈ (t.toWorker v).sent := by
  unfold sendWorker at h
  split at h
  · cases h
    refine ⟨rfl, by simp, fun v f hf => ?_⟩
    by_cases hv : v = x.worker
    · subst hv
      simp [hf]
    · simpa [hv] using hf
  · cases h

theorem writeProxy_some {y : Option (Session P W)} {f : Frame Id} {ok : Bool}
    (h : writeProxy s p y f ok = some t) :
    t = { s with toProxy := t.toProxy } ∧
      (ok = true → ⟨y, f⟩ ∈ (t.toProxy p).sent) ∧
      (ok = false → proxyDone s p = true) ∧
      ∀ q g, g ∈ (s.toProxy q).sent → g ∈ (t.toProxy q).sent := by
  cases ok with
  | true =>
    simp only [writeProxy] at h
    split at h
    · cases h
      refine ⟨rfl, fun _ => by simp, nofun, fun q g hg => ?_⟩
      by_cases hq : q = p
      · subst hq
        simp [hg]
      · simpa [hq] using hg
    · cases h
  | false =>
    simp only [writeProxy] at h
    split at h
    · rename_i hd
      cases h
      exact ⟨rfl, nofun, fun _ => hd, fun _ _ hg => hg⟩
    · cases h

omit [DecidableEq W] [DecidableEq Id] in
@[simp] theorem setHandler_handler (s : State P W Id) (p : P) (pc : HandlerPc P W Id) :
    (setHandler s p pc).handler = Function.update s.handler p pc := rfl

omit [DecidableEq W] [DecidableEq Id] in
theorem sameTable_setHandler (s : State P W Id) (p : P) (pc : HandlerPc P W Id) :
    SameTable s (setHandler s p pc) := ⟨rfl, rfl, rfl, rfl⟩

omit [DecidableEq P] [DecidableEq Id] in
theorem SameTable.of_sendWorker (h : sendWorker s id x cmd payload = some t) : SameTable s t := by
  rw [(sendWorker_some h).1]
  exact ⟨rfl, rfl, rfl, rfl⟩

theorem SameTable.of_writeProxy {y : Option (Session P W)} {f : Frame Id} {ok : Bool}
    (h : writeProxy s p y f ok = some t) : SameTable s t := by
  rw [(writeProxy_some h).1]
  exact ⟨rfl, rfl, rfl, rfl⟩

/-! ## What a step does -/

/-- A step of the `proxyHandler` of `p`. -/
inductive HandlerMove (s : State P W Id) (p : P) : HandlerEvent W Id → State P W Id → Prop where
  | known {req : BrokerRequest Id} {x : Session P W} (hp : s.handler p = .reading)
      (hl : load s.sessions req.id = some x) : HandlerMove s p (.openRequest req) s
  | checked {req : BrokerRequest Id} (hp : s.handler p = .reading)
      (hl : load s.sessions req.id = none) :
      HandlerMove s p (.openRequest req) (setHandler s p (.checked req))
  | selected {req : BrokerRequest Id} {w : W} (hp : s.handler p = .checked req) :
      HandlerMove s p (.getWorker (some w)) (setHandler s p (.selected req w))
  | noWorkers {req : BrokerRequest Id} (hp : s.handler p = .checked req) :
      HandlerMove s p (.getWorker none)
        (setHandler s p (.reporting req.id none (.noWorkers req.route)))
  | store {req : BrokerRequest Id} {w : W} (hp : s.handler p = .selected req w) :
      HandlerMove s p .store (setHandler (store s req.id ⟨p, w, req.mode, s.serial⟩) p
        (.connecting req.id ⟨p, w, req.mode, s.serial⟩ req.target))
  | connectSent {id : Id} {x : Session P W} {target : Payload} {t : State P W Id}
      (hp : s.handler p = .connecting id x target)
      (hu : sendWorker s id x x.mode.connectCommand target = some t) :
      HandlerMove s p .connectSent
        { setHandler t p .reading with connects := (id, x) :: t.connects }
  | connectAborted {id : Id} {x : Session P W} {target : Payload} {err : SendError}
      (hp : s.handler p = .connecting id x target) (ha : sendAborts s x.worker err = true) :
      HandlerMove s p (.connectAborted err) (setHandler s p (.connectFailed id x err))
  | connectDelete {id : Id} {x : Session P W} {err : SendError}
      (hp : s.handler p = .connectFailed id x err) :
      HandlerMove s p .connectDelete
        (setHandler (delete s id) p (.reporting id (some x) (.send err)))
  | reported {id : Id} {x : Option (Session P W)} {err : OpenError} {ok : Bool} {t : State P W Id}
      (hp : s.handler p = .reporting id x err)
      (hu : writeProxy s p x ⟨id, .error, err.text⟩ ok = some t) :
      HandlerMove s p (.reported ok) (setHandler t p .reading)
  | ignored {id : Id} {cmd : Command} {payload : Payload} (hp : s.handler p = .reading)
      (hno : ∀ x, load s.sessions id = some x → x.proxy = p →
        cmd.carriesData = false ∧ cmd ≠ .close) :
      HandlerMove s p (.frame id cmd payload) s
  | data {id : Id} {cmd : Command} {payload : Payload} {x : Session P W}
      (hp : s.handler p = .reading) (hl : load s.sessions id = some x) (hx : x.proxy = p)
      (hc : cmd.carriesData = true) :
      HandlerMove s p (.frame id cmd payload) (setHandler s p (.sending id x cmd payload))
  | close {id : Id} {payload : Payload} {x : Session P W}
      (hp : s.handler p = .reading) (hl : load s.sessions id = some x) (hx : x.proxy = p) :
      HandlerMove s p (.frame id .close payload)
        { setHandler s p (.sendingClose id x) with proxyEnds := (id, x) :: s.proxyEnds }
  | dataSent {id : Id} {x : Session P W} {cmd : Command} {payload : Payload} {t : State P W Id}
      (hp : s.handler p = .sending id x cmd payload)
      (hu : sendWorker s id x cmd payload = some t) :
      HandlerMove s p .dataSent (setHandler t p .reading)
  | dataAborted {id : Id} {x : Session P W} {cmd : Command} {payload : Payload} {err : SendError}
      (hp : s.handler p = .sending id x cmd payload) (ha : sendAborts s x.worker err = true) :
      HandlerMove s p (.dataAborted err) (setHandler s p (.sendFailed id x err))
  | dataDelete {id : Id} {x : Session P W} {err : SendError}
      (hp : s.handler p = .sendFailed id x err) :
      HandlerMove s p .dataDelete (setHandler (delete s id) p (.refusing id x))
  | refused {id : Id} {x : Session P W} {ok : Bool} {t : State P W Id}
      (hp : s.handler p = .refusing id x)
      (hu : writeProxy s p (some x) ⟨id, .close, []⟩ ok = some t) :
      HandlerMove s p (.refused ok) (setHandler t p .reading)
  | closeSent {id : Id} {x : Session P W} {t : State P W Id}
      (hp : s.handler p = .sendingClose id x) (hu : sendWorker s id x .close [] = some t) :
      HandlerMove s p .closeSent (setHandler t p (.closing id x))
  | closeAborted {id : Id} {x : Session P W} {err : SendError}
      (hp : s.handler p = .sendingClose id x) (ha : sendAborts s x.worker err = true) :
      HandlerMove s p (.closeAborted err) (setHandler s p (.closing id x))
  | closeDelete {id : Id} {x : Session P W} (hp : s.handler p = .closing id x) :
      HandlerMove s p .closeDelete (setHandler (delete s id) p .reading)
  | readFailed (hp : s.handler p = .reading) :
      HandlerMove s p .readFailed (setHandler s p .returned)

theorem handlerStep_move {e : HandlerEvent W Id} (h : handlerStep s p e = some t) :
    HandlerMove s p e t := by
  cases e with
  | openRequest req =>
    simp only [handlerStep] at h
    split at h
    · rename_i hp
      split at h
      · rename_i x hl
        cases h
        exact .known hp hl
      · rename_i hl
        cases h
        exact .checked hp hl
    · cases h
  | getWorker w =>
    simp only [handlerStep] at h
    split at h
    · rename_i hp
      cases h
      exact .selected hp
    · rename_i hp
      cases h
      exact .noWorkers hp
    · cases h
  | store =>
    simp only [handlerStep] at h
    split at h
    · rename_i hp
      cases h
      exact .store hp
    · cases h
  | connectSent =>
    simp only [handlerStep] at h
    split at h
    · rename_i hp
      obtain ⟨u, hu, rfl⟩ := Option.map_eq_some_iff.mp h
      exact .connectSent hp hu
    · cases h
  | connectAborted err =>
    simp only [handlerStep] at h
    split at h
    · rename_i hp
      split at h
      · rename_i ha
        cases h
        exact .connectAborted hp ha
      · cases h
    · cases h
  | connectDelete =>
    simp only [handlerStep] at h
    split at h
    · rename_i hp
      cases h
      exact .connectDelete hp
    · cases h
  | reported ok =>
    simp only [handlerStep] at h
    split at h
    · rename_i hp
      obtain ⟨u, hu, rfl⟩ := Option.map_eq_some_iff.mp h
      exact .reported hp hu
    · cases h
  | frame id cmd payload =>
    simp only [handlerStep] at h
    split at h
    · rename_i hp
      split at h
      · rename_i hnone
        cases h
        refine .ignored hp fun x hl => ?_
        rw [hnone] at hl
        cases hl
      · rename_i x hl
        split at h
        · rename_i hx
          cases cmd with
          | data | udpData =>
            cases h
            exact .data hp hl hx rfl
          | close =>
            cases h
            exact .close hp hl hx
          | connect | connected | error | udpConnect | unknown code =>
            cases h
            exact .ignored hp fun _ _ _ => ⟨rfl, by simp⟩
        · rename_i hx
          cases h
          refine .ignored hp fun y hy hyp => ?_
          rw [hl] at hy
          cases hy
          exact absurd hyp hx
    · cases h
  | dataSent =>
    simp only [handlerStep] at h
    split at h
    · rename_i hp
      obtain ⟨u, hu, rfl⟩ := Option.map_eq_some_iff.mp h
      exact .dataSent hp hu
    · cases h
  | dataAborted err =>
    simp only [handlerStep] at h
    split at h
    · rename_i hp
      split at h
      · rename_i ha
        cases h
        exact .dataAborted hp ha
      · cases h
    · cases h
  | dataDelete =>
    simp only [handlerStep] at h
    split at h
    · rename_i hp
      cases h
      exact .dataDelete hp
    · cases h
  | refused ok =>
    simp only [handlerStep] at h
    split at h
    · rename_i hp
      obtain ⟨u, hu, rfl⟩ := Option.map_eq_some_iff.mp h
      exact .refused hp hu
    · cases h
  | closeSent =>
    simp only [handlerStep] at h
    split at h
    · rename_i hp
      obtain ⟨u, hu, rfl⟩ := Option.map_eq_some_iff.mp h
      exact .closeSent hp hu
    · cases h
  | closeAborted err =>
    simp only [handlerStep] at h
    split at h
    · rename_i hp
      split at h
      · rename_i ha
        cases h
        exact .closeAborted hp ha
      · cases h
    · cases h
  | closeDelete =>
    simp only [handlerStep] at h
    split at h
    · rename_i hp
      cases h
      exact .closeDelete hp
    · cases h
  | readFailed =>
    simp only [handlerStep] at h
    split at h
    · rename_i hp
      cases h
      exact .readFailed hp
    · cases h

/-- A step of `ProxyConnection.close` for `p`. -/
inductive CloseMove (s : State P W Id) (p : P) : CloseEvent P W Id → State P W Id → Prop where
  | begin (hp : s.close p = .notCalled) : CloseMove s p .begin (setClose s p .doneClosed)
  | rangeStart (hp : s.close p = .doneClosed) :
      CloseMove s p .rangeStart (setClose s p (.scanning ⟨Scan.start s.sessions, s.serial⟩))
  | found {r : Sweep Id (Session P W)} {d : Scan Id (Session P W)} {id : Id} {x : Session P W}
      (hp : s.close p = .scanning r) (hv : r.scan.visit s.sessions id x = some d)
      (hx : x.proxy = p) :
      CloseMove s p (.visit id x) { setClose s p (.deleting { r with scan := d } id x) with
        senders := (id, x) :: s.senders }
  | passed {r : Sweep Id (Session P W)} {d : Scan Id (Session P W)} {id : Id} {x : Session P W}
      (hp : s.close p = .scanning r) (hv : r.scan.visit s.sessions id x = some d)
      (hx : x.proxy ≠ p) :
      CloseMove s p (.visit id x) (setClose s p (.scanning { r with scan := d }))
  | delete {r : Sweep Id (Session P W)} {id : Id} {x : Session P W}
      (hp : s.close p = .deleting r id x) :
      CloseMove s p .delete
        (setClose (delete s id) p (.scanning { r with scan := r.scan.onDelete id }))
  | rangeEnd {r : Sweep Id (Session P W)} (hp : s.close p = .scanning r)
      (hr : r.scan.ended = true) : CloseMove s p .rangeEnd (setClose s p .finished)

theorem closeStep_move {e : CloseEvent P W Id} (h : closeStep s p e = some t) :
    CloseMove s p e t := by
  cases e with
  | begin =>
    simp only [closeStep] at h
    split at h
    · rename_i hp
      cases h
      exact .begin hp
    · cases h
  | rangeStart =>
    simp only [closeStep] at h
    split at h
    · rename_i hp
      cases h
      exact .rangeStart hp
    · cases h
  | visit id x =>
    simp only [closeStep] at h
    split at h
    · rename_i r hp
      obtain ⟨d, hv, rfl⟩ := Option.map_eq_some_iff.mp h
      by_cases hx : x.proxy = p
      · rw [if_pos hx]
        exact .found hp hv hx
      · rw [if_neg hx]
        exact .passed hp hv hx
    · cases h
  | delete =>
    simp only [closeStep] at h
    split at h
    · rename_i hp
      cases h
      exact .delete hp
    · cases h
  | rangeEnd =>
    simp only [closeStep] at h
    split at h
    · rename_i hp
      split at h
      · rename_i hr
        cases h
        exact .rangeEnd hp hr
      · cases h
    · cases h

/-- A step of `removeWorker` for `w`. -/
inductive RemoveMove (s : State P W Id) (w : W) : RemoveEvent P W Id → State P W Id → Prop where
  | begin (hw : s.removal w = .notCalled) : RemoveMove s w .begin (setRemoval s w .groupLeft)
  | rangeStart (hw : s.removal w = .groupLeft) :
      RemoveMove s w .rangeStart (setRemoval s w (.scanning ⟨Scan.start s.sessions, s.serial⟩))
  | found {r : Sweep Id (Session P W)} {d : Scan Id (Session P W)} {id : Id} {x : Session P W}
      (hw : s.removal w = .scanning r) (hv : r.scan.visit s.sessions id x = some d)
      (hx : x.worker = w) :
      RemoveMove s w (.visit id x) (setRemoval s w (.notifying { r with scan := d } id x))
  | passed {r : Sweep Id (Session P W)} {d : Scan Id (Session P W)} {id : Id} {x : Session P W}
      (hw : s.removal w = .scanning r) (hv : r.scan.visit s.sessions id x = some d)
      (hx : x.worker ≠ w) :
      RemoveMove s w (.visit id x) (setRemoval s w (.scanning { r with scan := d }))
  | notified {r : Sweep Id (Session P W)} {id : Id} {x : Session P W} {ok : Bool}
      {t : State P W Id} (hw : s.removal w = .notifying r id x)
      (hu : writeProxy s x.proxy (some x) ⟨id, .close, []⟩ ok = some t) :
      RemoveMove s w (.notified ok) (setRemoval t w (.deleting r id x))
  | delete {r : Sweep Id (Session P W)} {id : Id} {x : Session P W}
      (hw : s.removal w = .deleting r id x) :
      RemoveMove s w .delete
        (setRemoval (delete s id) w (.scanning { r with scan := r.scan.onDelete id }))
  | rangeEnd {r : Sweep Id (Session P W)} (hw : s.removal w = .scanning r)
      (hr : r.scan.ended = true) : RemoveMove s w .rangeEnd (setRemoval s w .scanned)
  | closeDone (hw : s.removal w = .scanned) :
      RemoveMove s w .closeDone (setRemoval s w .finished)

theorem removeStep_move {e : RemoveEvent P W Id} (h : removeStep s w e = some t) :
    RemoveMove s w e t := by
  cases e with
  | begin =>
    simp only [removeStep] at h
    split at h
    · rename_i hw
      cases h
      exact .begin hw
    · cases h
  | rangeStart =>
    simp only [removeStep] at h
    split at h
    · rename_i hw
      cases h
      exact .rangeStart hw
    · cases h
  | visit id x =>
    simp only [removeStep] at h
    split at h
    · rename_i r hw
      obtain ⟨d, hv, rfl⟩ := Option.map_eq_some_iff.mp h
      by_cases hx : x.worker = w
      · rw [if_pos hx]
        exact .found hw hv hx
      · rw [if_neg hx]
        exact .passed hw hv hx
    · cases h
  | notified ok =>
    simp only [removeStep] at h
    split at h
    · rename_i hw
      obtain ⟨u, hu, rfl⟩ := Option.map_eq_some_iff.mp h
      exact .notified hw hu
    · cases h
  | delete =>
    simp only [removeStep] at h
    split at h
    · rename_i hw
      cases h
      exact .delete hw
    · cases h
  | rangeEnd =>
    simp only [removeStep] at h
    split at h
    · rename_i hw
      split at h
      · rename_i hr
        cases h
        exact .rangeEnd hw hr
      · cases h
    · cases h
  | closeDone =>
    simp only [removeStep] at h
    split at h
    · rename_i hw
      cases h
      exact .closeDone hw
    · cases h

/-- A step of the `workerReader` of `w`. -/
inductive ReaderMove (s : State P W Id) (w : W) : ReaderEvent Id → State P W Id → Prop where
  | ignored {id : Id} {cmd : Command} {payload : Payload} (hw : s.reader w = .reading)
      (hno : ∀ x, load s.sessions id = some x → x.worker = w →
        cmd.carriesData = false ∧ cmd ≠ .connected ∧ cmd ≠ .close) :
      ReaderMove s w (.frame id cmd payload) s
  | frame {id : Id} {cmd : Command} {payload : Payload} {x : Session P W}
      (hw : s.reader w = .reading) (hl : load s.sessions id = some x) (hx : x.worker = w)
      (hc : cmd.carriesData = true ∨ cmd = .connected) :
      ReaderMove s w (.frame id cmd payload) (setReader s w (.forwarding id x cmd payload))
  | close {id : Id} {payload : Payload} {x : Session P W}
      (hw : s.reader w = .reading) (hl : load s.sessions id = some x) (hx : x.worker = w) :
      ReaderMove s w (.frame id .close payload)
        { setReader s w (.forwardingClose id x payload) with
          workerEnds := (id, x) :: s.workerEnds }
  | forwarded {id : Id} {x : Session P W} {cmd : Command} {payload : Payload} {ok : Bool}
      {t : State P W Id} (hw : s.reader w = .forwarding id x cmd payload)
      (hu : writeProxy s x.proxy (some x) ⟨id, cmd, payload⟩ ok = some t) :
      ReaderMove s w (.forwarded ok) (setReader t w (if ok then .reading else .writeFailed id x))
  | failDelete {id : Id} {x : Session P W} (hw : s.reader w = .writeFailed id x) :
      ReaderMove s w .failDelete (setReader (delete s id) w .reading)
  | closeForwarded {id : Id} {x : Session P W} {payload : Payload} {ok : Bool} {t : State P W Id}
      (hw : s.reader w = .forwardingClose id x payload)
      (hu : writeProxy s x.proxy (some x) ⟨id, .close, payload⟩ ok = some t) :
      ReaderMove s w (.closeForwarded ok) (setReader t w (.closing id x))
  | closeDelete {id : Id} {x : Session P W} (hw : s.reader w = .closing id x) :
      ReaderMove s w .closeDelete (setReader (delete s id) w .reading)
  | readFailed (hw : s.reader w = .reading) :
      ReaderMove s w .readFailed (setReader s w .returned)

theorem readerStep_move {e : ReaderEvent Id} (h : readerStep s w e = some t) :
    ReaderMove s w e t := by
  cases e with
  | frame id cmd payload =>
    simp only [readerStep] at h
    split at h
    · rename_i hw
      split at h
      · rename_i hnone
        cases h
        refine .ignored hw fun x hl => ?_
        rw [hnone] at hl
        cases hl
      · rename_i x hl
        split at h
        · rename_i hx
          cases cmd with
          | data | udpData =>
            cases h
            exact .frame hw hl hx (Or.inl rfl)
          | connected =>
            cases h
            exact .frame hw hl hx (Or.inr rfl)
          | close =>
            cases h
            exact .close hw hl hx
          | connect | error | udpConnect | unknown code =>
            cases h
            exact .ignored hw fun _ _ _ => ⟨rfl, by simp, by simp⟩
        · rename_i hx
          cases h
          refine .ignored hw fun y hy hyw => ?_
          rw [hl] at hy
          cases hy
          exact absurd hyw hx
    · cases h
  | forwarded ok =>
    simp only [readerStep] at h
    split at h
    · rename_i hw
      obtain ⟨u, hu, rfl⟩ := Option.map_eq_some_iff.mp h
      exact .forwarded hw hu
    · cases h
  | failDelete =>
    simp only [readerStep] at h
    split at h
    · rename_i hw
      cases h
      exact .failDelete hw
    · cases h
  | closeForwarded ok =>
    simp only [readerStep] at h
    split at h
    · rename_i hw
      obtain ⟨u, hu, rfl⟩ := Option.map_eq_some_iff.mp h
      exact .closeForwarded hw hu
    · cases h
  | closeDelete =>
    simp only [readerStep] at h
    split at h
    · rename_i hw
      cases h
      exact .closeDelete hw
    · cases h
  | readFailed =>
    simp only [readerStep] at h
    split at h
    · rename_i hw
      cases h
      exact .readFailed hw
    · cases h

end SplitProxy.SessionTable
