import Mathlib.Logic.Function.Basic
import SplitProxy.Hello
import SplitProxy.Runs
import SplitProxy.SyncMap

/-!
# The shutdown of the broker

`main` after the signal, beside the handlers of worker and proxy connections at whatever
point of their lives it finds them. The flag, the map of active workers and the set of
proxy connections are three things under three locks, and each access is one step: a
handler may have asked for the flag before it was set and go on long after.
-/
namespace SplitProxy.BrokerShutdown

open Runs SyncMap Hello

abbrev WorkerId := Nat
abbrev ProxyId := Nat

/-- Where `main` stands, with the connections of its snapshot that are yet to be closed. -/
inductive MainPc where
  | listening
  | flagged
  | closingWorkers (left : List WorkerId)
  | closingProxies (left : List ProxyId)
  | stopped
  deriving DecidableEq, Repr

/-- `workerHandler`; `old` is the worker it found under its GUID. -/
inductive WorkerPc where
  | absent
  | upgraded
  | greeting
  | greeted
  | registering
  | registered
  | created
  | gotActive (old : Option WorkerId)
  /-- `setActiveWorker` has found the broker running -/
  | entering (old : Option WorkerId)
  | entered (old : Option WorkerId)
  | removingOld (old : WorkerId)
  | running
  | refused
  deriving DecidableEq, Repr

/-- `proxyHandler` -/
inductive ProxyPc where
  | absent
  | upgraded
  | accepted
  /-- `newProxyConnection` is done -/
  | registered
  | greeted
  | serving
  /-- a message has been read -/
  | received
  | handling
  | returned
  | refused
  deriving DecidableEq, Repr

/-- The one execution of `removeWorker`, or of `ProxyConnection.close`. -/
inductive ClosePc where
  | notCalled
  | begun
  | finished
  deriving DecidableEq, Repr

/-- When a worker was put into the map of active workers. -/
inductive Entry where
  | never
  | early
  /-- after `closeAllWorkers` had read the map -/
  | late
  deriving DecidableEq, Repr

structure State where
  shuttingDown : Bool
  main : MainPc
  activeWorkers : Entries Bytes WorkerId
  worker : WorkerId → WorkerPc
  workerGUID : WorkerId → Bytes
  removal : WorkerId → ClosePc
  entry : WorkerId → Entry
  /-- overwritten by a handler that had looked before the worker was there -/
  overwritten : WorkerId → Bool
  proxyConnections : List ProxyId
  proxy : ProxyId → ProxyPc
  closing : ProxyId → ClosePc

def initial : State where
  shuttingDown := false
  main := .listening
  activeWorkers := []
  worker := fun _ => .absent
  workerGUID := fun _ => []
  removal := fun _ => .notCalled
  entry := fun _ => .never
  overwritten := fun _ => false
  proxyConnections := []
  proxy := fun _ => .absent
  closing := fun _ => .notCalled

/-- Who calls `removeWorker`. -/
inductive Caller where
  /-- a goroutine of the worker itself -/
  | own
  | handler (w : WorkerId)
  | main
  deriving DecidableEq, Repr

/-- Who calls `ProxyConnection.close`. -/
inductive Closer where
  | writer
  | handler
  | main
  deriving DecidableEq, Repr

inductive Event where
  | setShuttingDown
  | readWorkers (ws : List WorkerId)
  | workerClosed
  | readProxies (ps : List ProxyId)
  | proxyClosed
  | stop
  | workerCheck (w : WorkerId)
  | workerHello (w : WorkerId) (hello : Option WorkerHello)
  | workerRegister (w : WorkerId) (ok : Bool)
  | getActive (w : WorkerId)
  | setActive (w : WorkerId)
  | replace (w : WorkerId)
  | oldRemoved (w : WorkerId)
  | removeBegin (w : WorkerId) (caller : Caller)
  | removeEnd (w : WorkerId)
  | proxyCheck (p : ProxyId)
  | newProxyConnection (p : ProxyId)
  | proxyHello (p : ProxyId) (hello : Option ProxyHello)
  | proxyRead (p : ProxyId)
  | proxyHandled (p : ProxyId)
  | proxyReadFailed (p : ProxyId)
  | closeBegin (p : ProxyId) (closer : Closer)
  | closeEnd (p : ProxyId)
  deriving DecidableEq, Repr

def setWorker (s : State) (w : WorkerId) (pc : WorkerPc) : State :=
  { s with worker := Function.update s.worker w pc }

def setProxy (s : State) (p : ProxyId) (pc : ProxyPc) : State :=
  { s with proxy := Function.update s.proxy p pc }

/-- Where `workerHandler` goes from a place where it calls `isShuttingDown`, in
`setActiveWorker` too. -/
def workerChecked (shuttingDown : Bool) : WorkerPc → Option WorkerPc
  | .absent => some (if shuttingDown then .refused else .upgraded)
  | .upgraded => some (if shuttingDown then .refused else .greeting)
  | .greeted => some (if shuttingDown then .refused else .registering)
  | .registered => some (if shuttingDown then .refused else .created)
  | .gotActive old => some (if shuttingDown then .entered old else .entering old)
  | _ => none

/-- Where `proxyHandler` goes from a place where it calls `isShuttingDown`. -/
def proxyChecked (shuttingDown : Bool) : ProxyPc → Option ProxyPc
  | .absent => some (if shuttingDown then .refused else .upgraded)
  | .upgraded => some (if shuttingDown then .refused else .accepted)
  | .greeted => some (if shuttingDown then .returned else .serving)
  | .received => some (if shuttingDown then .returned else .handling)
  | _ => none

/-- `closeAllWorkers` has read the map of active workers. -/
def hasRead : MainPc → Bool
  | .closingWorkers _ | .closingProxies _ | .stopped => true
  | _ => false

/-- `closeAllWorkers` has returned. -/
def workersClosed : MainPc → Bool
  | .closingProxies _ | .stopped => true
  | _ => false

/-- `newProxyConnection` has been called, and the handler has not returned. -/
def isOpen : ProxyPc → Bool
  | .registered | .greeted | .serving | .received | .handling => true
  | _ => false

/-- The handler is past the last check before it serves. -/
def serves : ProxyPc → Bool
  | .serving | .received | .handling => true
  | _ => false

/-- What is under way calls `removeWorker` on `w`. -/
def callsRemove (s : State) (w : WorkerId) : Caller → Bool
  | .own => s.worker w = .running
  | .handler x => s.worker x = .removingOld w
  | .main =>
    match s.main with
    | .closingWorkers (x :: _) => x = w
    | _ => false

def callsClose (s : State) (p : ProxyId) : Closer → Bool
  | .writer => isOpen (s.proxy p)
  | .handler => s.proxy p = .returned
  | .main =>
    match s.main with
    | .closingProxies (q :: _) => q = p
    | _ => false

/-- The worker that loses its place to `w` without being removed by it. -/
def overwrites (s : State) (w : WorkerId) (old : Option WorkerId) (x : WorkerId) : Bool :=
  load s.activeWorkers (s.workerGUID w) = some x ∧ old ≠ some x

def step (workerToken proxyToken : Bytes) (s : State) : Event → Option State
  | .setShuttingDown =>
    if s.main = .listening then some { s with shuttingDown := true, main := .flagged } else none
  | .readWorkers ws =>
    if s.main = .flagged ∧ ws.Perm (s.activeWorkers.map Prod.snd) then
      some { s with main := .closingWorkers ws }
    else none
  | .workerClosed =>
    match s.main with
    | .closingWorkers (w :: ws) =>
      if s.removal w = .finished then some { s with main := .closingWorkers ws } else none
    | _ => none
  | .readProxies ps =>
    if s.main = .closingWorkers [] ∧ ps.Perm s.proxyConnections then
      some { s with main := .closingProxies ps }
    else none
  | .proxyClosed =>
    match s.main with
    | .closingProxies (p :: ps) =>
      if s.closing p = .finished then some { s with main := .closingProxies ps } else none
    | _ => none
  | .stop => if s.main = .closingProxies [] then some { s with main := .stopped } else none
  | .workerCheck w => (workerChecked s.shuttingDown (s.worker w)).map (setWorker s w)
  | .workerHello w hello =>
    if s.worker w = .greeting then
      if acceptsWorker workerToken hello then
        some { setWorker s w .greeted with
          workerGUID :=
            Function.update s.workerGUID w ((hello.map WorkerHello.workerGUID).getD []) }
      else some (setWorker s w .refused)
    else none
  | .workerRegister w ok =>
    if s.worker w = .registering then
      some (setWorker s w (if ok then .registered else .refused))
    else none
  | .getActive w =>
    if s.worker w = .created then
      some (setWorker s w (.gotActive (load s.activeWorkers (s.workerGUID w))))
    else none
  | .setActive w =>
    match s.worker w with
    | .entering old =>
      some { setWorker s w (.entered old) with
        activeWorkers := store s.activeWorkers (s.workerGUID w) w
        entry := Function.update s.entry w (if hasRead s.main then .late else .early)
        overwritten := fun x => s.overwritten x || overwrites s w old x }
    | _ => none
  | .replace w =>
    match s.worker w with
    | .entered none => some (setWorker s w .running)
    | .entered (some old) => some (setWorker s w (.removingOld old))
    | _ => none
  | .oldRemoved w =>
    match s.worker w with
    | .removingOld old =>
      if s.removal old = .finished then some (setWorker s w .running) else none
    | _ => none
  | .removeBegin w caller =>
    if s.removal w = .notCalled ∧ callsRemove s w caller = true then
      some { s with
        removal := Function.update s.removal w .begun
        activeWorkers :=
          if load s.activeWorkers (s.workerGUID w) = some w then
            delete s.activeWorkers (s.workerGUID w)
          else s.activeWorkers }
    else none
  | .removeEnd w =>
    if s.removal w = .begun then some { s with removal := Function.update s.removal w .finished }
    else none
  | .proxyCheck p => (proxyChecked s.shuttingDown (s.proxy p)).map (setProxy s p)
  | .newProxyConnection p =>
    if s.proxy p = .accepted then
      some { setProxy s p .registered with proxyConnections := p :: s.proxyConnections }
    else none
  | .proxyHello p hello =>
    if s.proxy p = .registered then
      some (setProxy s p (if acceptsProxy proxyToken hello then .greeted else .returned))
    else none
  | .proxyRead p => if s.proxy p = .serving then some (setProxy s p .received) else none
  | .proxyHandled p => if s.proxy p = .handling then some (setProxy s p .serving) else none
  | .proxyReadFailed p => if s.proxy p = .serving then some (setProxy s p .returned) else none
  | .closeBegin p closer =>
    if s.closing p = .notCalled ∧ callsClose s p closer = true then
      some { s with
        closing := Function.update s.closing p .begun
        proxyConnections := s.proxyConnections.filter (· ≠ p) }
    else none
  | .closeEnd p =>
    if s.closing p = .begun then some { s with closing := Function.update s.closing p .finished }
    else none

variable {workerToken proxyToken : Bytes} {s t : State} {e : Event} {es es' : List Event}
variable {w x : WorkerId} {p : ProxyId}

/-! ## Who changes what -/

inductive Party where
  | main
  | worker
  | proxy
  deriving DecidableEq

def partyOf : Event → Party
  | .setShuttingDown | .readWorkers _ | .workerClosed | .readProxies _ | .proxyClosed | .stop => .main
  | .workerCheck _ | .workerHello _ _ | .workerRegister _ _ | .getActive _ | .setActive _
  | .replace _ | .oldRemoved _ | .removeBegin _ _ | .removeEnd _ => .worker
  | .proxyCheck _ | .newProxyConnection _ | .proxyHello _ _ | .proxyRead _ | .proxyHandled _
  | .proxyReadFailed _ | .closeBegin _ _ | .closeEnd _ => .proxy

structure SameWorkers (s t : State) : Prop where
  active : t.activeWorkers = s.activeWorkers
  worker : t.worker = s.worker
  guid : t.workerGUID = s.workerGUID
  removal : t.removal = s.removal
  entry : t.entry = s.entry
  overwritten : t.overwritten = s.overwritten

structure SameProxies (s t : State) : Prop where
  connections : t.proxyConnections = s.proxyConnections
  proxy : t.proxy = s.proxy
  closing : t.closing = s.closing

structure SameMain (s t : State) : Prop where
  flag : t.shuttingDown = s.shuttingDown
  main : t.main = s.main

/-- What the snapshots and the loops of `main` change. -/
theorem main_step (he : partyOf e = .main) (h : step workerToken proxyToken s e = some t) :
    SameWorkers s t ∧ SameProxies s t := by
  cases e with
  | setShuttingDown | readWorkers ws | readProxies ps | stop =>
    simp only [step] at h
    split at h <;> cases h
    exact ⟨⟨rfl, rfl, rfl, rfl, rfl, rfl⟩, rfl, rfl, rfl⟩
  | workerClosed | proxyClosed =>
    simp only [step] at h
    split at h
    · split at h <;> cases h
      exact ⟨⟨rfl, rfl, rfl, rfl, rfl, rfl⟩, rfl, rfl, rfl⟩
    · cases h
  | _ => cases he

theorem worker_step (he : partyOf e = .worker) (h : step workerToken proxyToken s e = some t) :
    SameMain s t ∧ SameProxies s t := by
  cases e with
  | workerCheck w =>
    obtain ⟨pc, -, rfl⟩ := Option.map_eq_some_iff.mp h
    exact ⟨⟨rfl, rfl⟩, rfl, rfl, rfl⟩
  | workerHello w hello =>
    simp only [step] at h
    split at h
    · split at h <;> cases h <;> exact ⟨⟨rfl, rfl⟩, rfl, rfl, rfl⟩
    · cases h
  | replace w | setActive w =>
    simp only [step] at h
    split at h <;> cases h <;> exact ⟨⟨rfl, rfl⟩, rfl, rfl, rfl⟩
  | oldRemoved w =>
    simp only [step] at h
    split at h
    · split at h <;> cases h
      exact ⟨⟨rfl, rfl⟩, rfl, rfl, rfl⟩
    · cases h
  | workerRegister w ok | getActive w | removeBegin w caller | removeEnd w =>
    simp only [step] at h
    split at h <;> cases h
    exact ⟨⟨rfl, rfl⟩, rfl, rfl, rfl⟩
  | _ => cases he

theorem proxy_step (he : partyOf e = .proxy) (h : step workerToken proxyToken s e = some t) :
    SameMain s t ∧ SameWorkers s t := by
  cases e with
  | proxyCheck p =>
    obtain ⟨pc, -, rfl⟩ := Option.map_eq_some_iff.mp h
    exact ⟨⟨rfl, rfl⟩, rfl, rfl, rfl, rfl, rfl, rfl⟩
  | newProxyConnection p | proxyHello p hello | proxyRead p | proxyHandled p | proxyReadFailed p
  | closeBegin p closer | closeEnd p =>
    simp only [step] at h
    split at h <;> cases h
    exact ⟨⟨rfl, rfl⟩, rfl, rfl, rfl, rfl, rfl, rfl⟩
  | _ => cases he

/-- How `main` goes on: what it has before it, and what it has read or seen closed. -/
inductive MainMoves (s : State) : Event → MainPc → Prop where
  | flag (hmain : s.main = .listening) : MainMoves s .setShuttingDown .flagged
  | readWorkers {ws : List WorkerId} (hmain : s.main = .flagged)
      (hws : ws.Perm (s.activeWorkers.map Prod.snd)) :
      MainMoves s (.readWorkers ws) (.closingWorkers ws)
  | workerClosed {w : WorkerId} {ws : List WorkerId} (hmain : s.main = .closingWorkers (w :: ws))
      (hw : s.removal w = .finished) : MainMoves s .workerClosed (.closingWorkers ws)
  | readProxies {ps : List ProxyId} (hmain : s.main = .closingWorkers [])
      (hps : ps.Perm s.proxyConnections) : MainMoves s (.readProxies ps) (.closingProxies ps)
  | proxyClosed {p : ProxyId} {ps : List ProxyId} (hmain : s.main = .closingProxies (p :: ps))
      (hp : s.closing p = .finished) : MainMoves s .proxyClosed (.closingProxies ps)
  | stop (hmain : s.main = .closingProxies []) : MainMoves s .stop .stopped

theorem main_moves (he : partyOf e = .main) (h : step workerToken proxyToken s e = some t) :
    MainMoves s e t.main ∧ t.shuttingDown = (s.shuttingDown || e = .setShuttingDown) := by
  cases e with
  | setShuttingDown =>
    simp only [step] at h
    split at h <;> cases h
    exact ⟨.flag ‹_›, by simp⟩
  | readWorkers ws =>
    simp only [step] at h
    split at h
    · rename_i hmain
      cases h
      exact ⟨.readWorkers hmain.1 hmain.2, by simp⟩
    · cases h
  | workerClosed =>
    simp only [step] at h
    split at h
    · split at h <;> cases h
      exact ⟨.workerClosed ‹_› ‹_›, by simp⟩
    · cases h
  | readProxies ps =>
    simp only [step] at h
    split at h
    · rename_i hmain
      cases h
      exact ⟨.readProxies hmain.1 hmain.2, by simp⟩
    · cases h
  | proxyClosed =>
    simp only [step] at h
    split at h
    · split at h <;> cases h
      exact ⟨.proxyClosed ‹_› ‹_›, by simp⟩
    · cases h
  | stop =>
    simp only [step] at h
    split at h <;> cases h
    exact ⟨.stop ‹_›, by simp⟩
  | _ => cases he

/-! ## The flag -/

/-- The flag is set exactly when `main` is past the signal. -/
def Flagged (s : State) : Prop := s.shuttingDown = true ↔ s.main ≠ .listening

theorem flagged_step (hs : Flagged s) (h : step workerToken proxyToken s e = some t) :
    Flagged t := by
  cases he : partyOf e with
  | main =>
    obtain ⟨hmoves, hflag⟩ := main_moves he h
    rw [Flagged, hflag]
    generalize t.main = m at hmoves ⊢
    cases hmoves with
    | flag => simp
    | readWorkers hmain | workerClosed hmain | readProxies hmain | proxyClosed hmain | stop hmain =>
      have hset : s.shuttingDown = true := hs.mpr (by rw [hmain]; simp)
      simp [hset]
  | worker =>
    obtain ⟨hmain, -⟩ := worker_step he h
    rwa [Flagged, hmain.flag, hmain.main]
  | proxy =>
    obtain ⟨hmain, -⟩ := proxy_step he h
    rwa [Flagged, hmain.flag, hmain.main]

/-! ## The proxy connections -/

/-- `closeAllProxyConnections` has read the set of connections. -/
def proxiesRead : MainPc → Bool
  | .closingProxies _ | .stopped => true
  | _ => false

/-- `main` is yet to close the connection. -/
def closesProxy (p : ProxyId) : MainPc → Prop
  | .closingProxies ps => p ∈ ps
  | _ => False

/-- A connection is in the set until its `close` takes it out. -/
def Listed (s : State) (p : ProxyId) : Prop :=
  p ∈ s.proxyConnections ∨ s.closing p ≠ .notCalled

/-- What a step of the handlers leaves of a close that has been called, and of the set. -/
theorem closing_proxy (he : partyOf e = .proxy) (h : step workerToken proxyToken s e = some t)
    (p : ProxyId) : (s.closing p ≠ .notCalled → t.closing p ≠ .notCalled) ∧
      (p ∈ s.proxyConnections → Listed t p) := by
  cases e with
  | proxyCheck q =>
    obtain ⟨pc, -, rfl⟩ := Option.map_eq_some_iff.mp h
    exact ⟨id, Or.inl⟩
  | newProxyConnection q =>
    simp only [step] at h
    split at h <;> cases h
    exact ⟨id, fun hp => Or.inl (List.mem_cons_of_mem q hp)⟩
  | proxyHello q hello | proxyRead q | proxyHandled q | proxyReadFailed q =>
    simp only [step] at h
    split at h <;> cases h
    exact ⟨id, Or.inl⟩
  | closeBegin q closer =>
    simp only [step] at h
    split at h
    · cases h
      by_cases hpq : p = q
      · have hbegun : Function.update s.closing q .begun p ≠ .notCalled := by simp [hpq]
        exact ⟨fun _ => hbegun, fun _ => Or.inr hbegun⟩
      · simp only [Listed, Function.update_of_ne hpq, List.mem_filter, decide_eq_true_eq]
        exact ⟨id, fun hp => Or.inl ⟨hp, hpq⟩⟩
    · cases h
  | closeEnd q =>
    simp only [step] at h
    split at h
    · cases h
      refine ⟨fun hp => ?_, Or.inl⟩
      by_cases hpq : p = q
      · simp [hpq]
      · simpa only [Function.update_of_ne hpq] using hp
    · cases h
  | _ => cases he

theorem closing_step (h : step workerToken proxyToken s e = some t)
    (hp : s.closing p ≠ .notCalled) : t.closing p ≠ .notCalled := by
  cases he : partyOf e with
  | main => rwa [(main_step he h).2.closing]
  | worker => rwa [(worker_step he h).2.closing]
  | proxy => exact (closing_proxy he h p).1 hp

theorem listed_step (h : step workerToken proxyToken s e = some t) (hp : Listed s p) :
    Listed t p := by
  rcases hp with hmem | hclosing
  · cases he : partyOf e with
    | main => exact Or.inl (by rwa [(main_step he h).2.connections])
    | worker => exact Or.inl (by rwa [(worker_step he h).2.connections])
    | proxy => exact (closing_proxy he h p).2 hmem
  · exact Or.inr (closing_step h hclosing)

/-- `main` closes what it finds in the set. -/
structure Kept (s : State) (p : ProxyId) : Prop where
  listed : Listed s p
  read : proxiesRead s.main = true → s.closing p ≠ .notCalled ∨ closesProxy p s.main

/-- Whatever its handler does next, a connection that has been kept stays so. -/
theorem kept_step (h : step workerToken proxyToken s e = some t) (hs : Kept s p) : Kept t p := by
  refine ⟨listed_step h hs.listed, ?_⟩
  cases he : partyOf e with
  | worker =>
    rw [(worker_step he h).1.main]
    exact fun hread => (hs.read hread).imp_left (closing_step h)
  | proxy =>
    rw [(proxy_step he h).1.main]
    exact fun hread => (hs.read hread).imp_left (closing_step h)
  | main =>
    obtain ⟨hmoves, -⟩ := main_moves he h
    have hclosing := (main_step he h).2.closing
    generalize t.main = m at hmoves ⊢
    rw [hclosing]
    intro hread
    cases hmoves with
    | flag | readWorkers | workerClosed => cases hread
    | readProxies hmain hps => exact hs.listed.symm.imp_right hps.mem_iff.mpr
    | proxyClosed hmain hfinished =>
      have hold := hs.read (by rw [hmain]; rfl)
      rw [hmain] at hold
      rcases hold with hbegun | hmem
      · exact Or.inl hbegun
      · rcases List.mem_cons.mp hmem with rfl | hmem
        · left
          simp [hfinished]
        · exact Or.inr hmem
    | stop hmain =>
      have hold := hs.read (by rw [hmain]; rfl)
      rw [hmain] at hold
      rcases hold with hbegun | hmem
      · exact Or.inl hbegun
      · cases hmem

/-- One step of the handler of a connection that is `listed` once it is taken. -/
inductive Turn (shuttingDown : Bool) (listed : Prop) : ProxyPc → ProxyPc → Prop where
  | checks {pc pc' : ProxyPc} (h : proxyChecked shuttingDown pc = some pc') :
    Turn shuttingDown listed pc pc'
  | registers (h : listed) : Turn shuttingDown listed .accepted .registered
  | greets : Turn shuttingDown listed .registered .greeted
  | rejects : Turn shuttingDown listed .registered .returned
  | reads : Turn shuttingDown listed .serving .received
  | replies : Turn shuttingDown listed .handling .serving
  | fails : Turn shuttingDown listed .serving .returned

theorem turn_setProxy {q : ProxyId} {pc : ProxyPc} {ps : List ProxyId}
    (h : Turn s.shuttingDown (q ∈ ps) (s.proxy q) pc) (p : ProxyId) :
    (setProxy s q pc).proxy p = s.proxy p ∨
      Turn s.shuttingDown (p ∈ ps) (s.proxy p) ((setProxy s q pc).proxy p) := by
  by_cases hpq : p = q
  · subst hpq
    right
    simpa only [setProxy, Function.update_self] using h
  · left
    simp only [setProxy, Function.update_of_ne hpq]

theorem turn_step (h : step workerToken proxyToken s e = some t) (p : ProxyId) :
    t.proxy p = s.proxy p ∨
      Turn s.shuttingDown (p ∈ t.proxyConnections) (s.proxy p) (t.proxy p) := by
  cases he : partyOf e with
  | main => exact Or.inl (congrFun (main_step he h).2.proxy p)
  | worker => exact Or.inl (congrFun (worker_step he h).2.proxy p)
  | proxy =>
    cases e with
    | proxyCheck q =>
      obtain ⟨pc, hpc, rfl⟩ := Option.map_eq_some_iff.mp h
      exact turn_setProxy (.checks hpc) p
    | newProxyConnection q =>
      simp only [step] at h
      split at h
      · rename_i hq
        cases h
        exact turn_setProxy (by rw [hq]; exact .registers List.mem_cons_self) p
      · cases h
    | proxyHello q hello =>
      simp only [step] at h
      split at h
      · rename_i hq
        cases h
        refine turn_setProxy ?_ p
        rw [hq]
        split
        · exact .greets
        · exact .rejects
      · cases h
    | proxyRead q | proxyHandled q | proxyReadFailed q =>
      simp only [step] at h
      split at h
      · rename_i hq
        cases h
        refine turn_setProxy ?_ p
        rw [hq]
        first | exact .reads | exact .replies | exact .fails
      · cases h
    | closeBegin q closer | closeEnd q =>
      simp only [step] at h
      split at h <;> cases h
      exact Or.inl rfl
    | _ => cases he

section

variable {shuttingDown : Bool} {listed : Prop} {pc pc' : ProxyPc}

theorem Turn.open_before (h : Turn shuttingDown listed pc pc') (hopen : isOpen pc' = true) :
    isOpen pc = true ∨ listed := by
  cases h with
  | registers hlisted => exact Or.inr hlisted
  | rejects | fails => cases hopen
  | greets | reads | replies => exact Or.inl rfl
  | checks hpc =>
    revert hpc
    cases pc <;> cases shuttingDown <;> simp [proxyChecked, isOpen]
    all_goals
      rintro rfl
      cases hopen

/-- A handler begins to serve only while the flag is not set. -/
theorem Turn.serving_before (h : Turn shuttingDown listed pc pc') (hserves : serves pc' = true) :
    serves pc = true ∨ isOpen pc = true ∧ shuttingDown = false := by
  cases h with
  | registers | greets | rejects | fails => cases hserves
  | reads | replies => exact Or.inl rfl
  | checks hpc =>
    revert hpc
    cases pc <;> cases shuttingDown <;> simp [proxyChecked, isOpen, serves]
    all_goals
      rintro rfl
      cases hserves

/-- A message is handled only when the flag was not set after it had been read. -/
theorem Turn.handling (h : Turn shuttingDown listed pc .handling) : shuttingDown = false := by
  cases h with
  | checks hpc =>
    revert hpc
    cases pc <;> cases shuttingDown <;> simp [proxyChecked]

end

structure Drains (s : State) : Prop where
  flagged : Flagged s
  opened : ∀ p, isOpen (s.proxy p) = true → Listed s p
  served : ∀ p, serves (s.proxy p) = true → Kept s p

theorem drains_initial : Drains initial := by
  constructor
  · simp [Flagged, initial]
  · intro p hp
    cases hp
  · intro p hp
    cases hp

/-- While the flag is not set `main` has read nothing. -/
theorem Drains.unread (hs : Drains s) (h : s.shuttingDown = false) : proxiesRead s.main = false := by
  have hmain : s.main = .listening := by
    by_contra hne
    rw [hs.flagged.mpr hne] at h
    cases h
  rw [hmain]
  rfl

theorem drains_step (hs : Drains s) (h : step workerToken proxyToken s e = some t) : Drains t := by
  constructor
  · exact flagged_step hs.flagged h
  · intro p hp
    rcases turn_step h p with hsame | hturn
    · rw [hsame] at hp
      exact listed_step h (hs.opened p hp)
    · rcases hturn.open_before hp with hopen | hmem
      · exact listed_step h (hs.opened p hopen)
      · exact Or.inl hmem
  · intro p hp
    apply kept_step h
    rcases turn_step h p with hsame | hturn
    · rw [hsame] at hp
      exact hs.served p hp
    · rcases hturn.serving_before hp with hserves | ⟨hopen, hflag⟩
      · exact hs.served p hserves
      · refine ⟨hs.opened p hopen, fun hread => ?_⟩
        rw [hs.unread hflag] at hread
        cases hread

theorem flag_step (hflag : s.shuttingDown = true)
    (h : step workerToken proxyToken s e = some t) : t.shuttingDown = true := by
  cases he : partyOf e with
  | main => simp [(main_moves he h).2, hflag]
  | worker => rwa [(worker_step he h).1.flag]
  | proxy => rwa [(proxy_step he h).1.flag]

/-- From the moment the flag is set no handler starts to serve or to handle a message. -/
theorem no_more_step (hflag : s.shuttingDown = true)
    (h : step workerToken proxyToken s e = some t) (p : ProxyId) :
    (serves (t.proxy p) = true → serves (s.proxy p) = true) ∧
      (t.proxy p = .handling → s.proxy p = .handling) := by
  rcases turn_step h p with hsame | hturn
  · rw [hsame]
    exact ⟨id, id⟩
  · rw [hflag] at hturn
    constructor
    · intro hserves
      rcases hturn.serving_before hserves with hbefore | ⟨-, hno⟩
      · exact hbefore
      · cases hno
    · intro hhandling
      rw [hhandling] at hturn
      exact absurd hturn.handling (by simp)

theorem no_more_run (hflag : s.shuttingDown = true)
    (h : run (step workerToken proxyToken) s es = some t) (p : ProxyId) :
    (serves (t.proxy p) = true → serves (s.proxy p) = true) ∧
      (t.proxy p = .handling → s.proxy p = .handling) := by
  induction es generalizing s with
  | nil =>
    cases h
    exact ⟨id, id⟩
  | cons e es ih =>
    obtain ⟨m, hstep, hrun⟩ := run_cons_some h
    obtain ⟨hserves, hhandling⟩ := no_more_step hflag hstep p
    obtain ⟨hserves', hhandling'⟩ := ih (flag_step hflag hstep) hrun
    exact ⟨fun hp => hserves (hserves' hp), fun hp => hhandling (hhandling' hp)⟩

/-- `closeAllProxyConnections` is done. -/
def proxiesClosed : MainPc → Bool
  | .closingProxies [] | .stopped => true
  | _ => false

theorem Kept.closed (hs : Kept s p) (h : proxiesClosed s.main = true) :
    s.closing p ≠ .notCalled := by
  have hread : proxiesRead s.main = true := by
    revert h
    cases s.main <;> simp [proxiesClosed, proxiesRead]
  rcases hs.read hread with hclosing | hmem
  · exact hclosing
  · revert h hmem
    cases s.main with
    | closingProxies ps => cases ps <;> simp [proxiesClosed, closesProxy]
    | _ => simp [closesProxy]

/-- The connection serves somewhere along the run, whatever becomes of it later. -/
def EverServes (workerToken proxyToken : Bytes) (es : List Event) (p : ProxyId) : Prop :=
  ∃ es₁ es₂ s, es = es₁ ++ es₂ ∧ run (step workerToken proxyToken) initial es₁ = some s ∧
    serves (s.proxy p) = true

theorem EverServes.kept (hp : EverServes workerToken proxyToken es p)
    (h : run (step workerToken proxyToken) initial es = some t) : Kept t p := by
  obtain ⟨es₁, es₂, s, rfl, hs, hserves⟩ := hp
  have hdrains : Drains s := run_preserves (fun _ _ _ => drains_step) drains_initial hs
  rw [run_append, hs] at h
  exact run_preserves (fun _ _ _ hk hstep => kept_step hstep hk) (hdrains.served p hserves) h

theorem EverServes.append (hp : EverServes workerToken proxyToken es p) (fs : List Event) :
    EverServes workerToken proxyToken (es ++ fs) p := by
  obtain ⟨es₁, es₂, s, rfl, hs, hserves⟩ := hp
  exact ⟨es₁, es₂ ++ fs, s, List.append_assoc .., hs, hserves⟩

/-- Whatever the handlers were at when the signal came: from the setting of the flag no
connection starts to serve and none takes up a message, and when `main` has closed the
proxy connections each one that has ever served is closed or being closed, though its
handler may have returned long before. -/
theorem proxies_drained (hr : run (step workerToken proxyToken) initial es = some s)
    (hflag : s.shuttingDown = true) (hr' : run (step workerToken proxyToken) s es' = some t) :
    (∀ p, serves (t.proxy p) = true → serves (s.proxy p) = true) ∧
      (∀ p, t.proxy p = .handling → s.proxy p = .handling) ∧
      (proxiesClosed t.main = true → ∀ p, EverServes workerToken proxyToken (es ++ es') p →
        t.closing p ≠ .notCalled) := by
  refine ⟨fun p => (no_more_run hflag hr' p).1, fun p => (no_more_run hflag hr' p).2, ?_⟩
  intro hclosed p hp
  exact (hp.kept (run_join hr hr')).closed hclosed

/-! ## A shutdown -/

/-- A worker up to where it has asked for the flag in `setActiveWorker`. -/
def arrives (w : WorkerId) (guid : Bytes) : List Event :=
  [.workerCheck w, .workerCheck w, .workerHello w (some ⟨guid, [115]⟩), .workerCheck w,
    .workerRegister w true, .workerCheck w, .getActive w, .workerCheck w]

/-- A proxy up to the handling of its first message. -/
def asks (p : ProxyId) : List Event :=
  [.proxyCheck p, .proxyCheck p, .newProxyConnection p, .proxyHello p (some ⟨[115]⟩), .proxyCheck p,
    .proxyRead p, .proxyCheck p]

/-- One worker is there, another is about to be, and a proxy has a message handled. -/
def joins : List Event := arrives 0 [97] ++ [.setActive 0, .replace 0] ++ arrives 1 [98] ++ asks 1

/-- That proxy hangs up, and another has a message handled. -/
def busy : List Event := joins ++ ([.proxyHandled 1, .proxyReadFailed 1] ++ asks 0)

/-- The second worker is put into the map after it has been read. -/
def closes : List Event :=
  [.readWorkers [0], .removeBegin 0 .main, .removeEnd 0, .workerClosed, .setActive 1,
    .readProxies [0, 1], .closeBegin 0 .main, .closeEnd 0, .proxyClosed, .closeBegin 1 .handler,
    .closeEnd 1, .proxyClosed, .stop]

theorem run_busy : ∃ s, run (step [115] [115]) initial busy = some s ∧ s.main = .listening ∧
    s.worker 1 = .entering none := by
  have h : (run (step [115] [115]) initial busy).map (fun s => (s.main, s.worker 1)) =
      some (.listening, .entering none) := by decide +kernel
  obtain ⟨s, hs, hpcs⟩ := Option.map_eq_some_iff.mp h
  simp only [Prod.mk.injEq] at hpcs
  exact ⟨s, hs, hpcs⟩

theorem run_closes : ∃ s t,
    run (step [115] [115]) initial (busy ++ [Event.setShuttingDown]) = some s ∧
      s.shuttingDown = true ∧ run (step [115] [115]) s closes = some t ∧ t.main = .stopped ∧
      t.proxy 1 = .returned ∧ t.entry 0 = .early ∧ load t.activeWorkers [98] = some 1 := by
  have h : (run (step [115] [115]) initial ((busy ++ [Event.setShuttingDown]) ++ closes)).map (fun t =>
      (t.main, t.proxy 1, t.entry 0, load t.activeWorkers [98])) =
      some (.stopped, .returned, .early, some 1) := by decide +kernel
  have hflag : (run (step [115] [115]) initial (busy ++ [Event.setShuttingDown])).map
      State.shuttingDown = some true := by decide +kernel
  obtain ⟨t, ht, hpcs⟩ := Option.map_eq_some_iff.mp h
  rw [run_append] at ht
  obtain ⟨s, hs, hclosed⟩ := Option.bind_eq_some_iff.mp ht
  rw [hs] at hflag
  simp only [Prod.mk.injEq] at hpcs
  exact ⟨s, t, hs, Option.some.inj hflag, hclosed, hpcs⟩

/-- The proxy that hung up has served. -/
theorem busy_served : EverServes [115] [115] ((busy ++ [Event.setShuttingDown]) ++ closes) 1 := by
  have h : (run (step [115] [115]) initial joins).map (fun s => serves (s.proxy 1)) =
      some true := by decide +kernel
  obtain ⟨s, hs, hserves⟩ := Option.map_eq_some_iff.mp h
  have hjoins : EverServes [115] [115] joins 1 :=
    ⟨joins, [], s, (List.append_nil joins).symm, hs, hserves⟩
  exact ((hjoins.append _).append _).append _

theorem proxies_drained_busy : ∃ s t,
    run (step [115] [115]) initial (busy ++ [Event.setShuttingDown]) = some s ∧
      run (step [115] [115]) s closes = some t ∧ t.proxy 1 = .returned ∧
      t.closing 1 ≠ .notCalled := by
  obtain ⟨s, t, hs, hflag, ht, hmain, hreturned, -, -⟩ := run_closes
  refine ⟨s, t, hs, ht, hreturned, ?_⟩
  exact (proxies_drained hs hflag ht).2.2 (by rw [hmain]; rfl) 1 busy_served

end SplitProxy.BrokerShutdown
