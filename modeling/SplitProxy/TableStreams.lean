import SplitProxy.Forwarding
import SplitProxy.TableIsolation

/-!
# The broker as a router of streams

The session table together with everything its handlers and readers have taken
from their websockets, and the session stored for each id. What a channel was
given of a session's stream is an initial segment of what was read of it, in
both directions, as long as no id is requested twice and no data arrives for an
id before its session is stored.
-/
namespace SplitProxy.TableStreams

open Runs SyncMap SessionTable
open TableIsolation (pushWorker sendWorker_eq)

/-- What a proxy sends: a request as text, frames as binary messages. -/
inductive Message (Id : Type) where
  | request (req : BrokerRequest Id)
  | frame (f : Frame Id)
  deriving DecidableEq

structure State (P W Id : Type) where
  table : SessionTable.State P W Id
  /-- the session stored for an id, deleted or not -/
  stored : Id → Option (Session P W)
  /-- the messages the handler of a connection has read -/
  read : P → List (Message Id)
  /-- the frames the reader of a worker has read -/
  got : W → List (Frame Id)

def initial (P W Id : Type) : State P W Id where
  table := SessionTable.initial P W Id
  stored := fun _ => none
  read := fun _ => []
  got := fun _ => []

inductive Event (P W Id : Type) where
  | proxyMessage (p : P) (m : Message Id)
  | workerMessage (w : W) (f : Frame Id)
  | table (e : SessionTable.Event P W Id)

/-- The messages come from the websockets only. -/
def admitted {P W Id : Type} : SessionTable.Event P W Id → Bool
  | .handler _ (.openRequest _) | .handler _ (.frame _ _ _) | .reader _ (.frame _ _ _) => false
  | _ => true

def Message.event {W Id : Type} : Message Id → HandlerEvent W Id
  | .request req => .openRequest req
  | .frame f => .frame f.id f.cmd f.payload

/-- The session a step stores. -/
def storesNow {P W Id : Type} (t : SessionTable.State P W Id) :
    SessionTable.Event P W Id → Option (Id × Session P W)
  | .handler p .store =>
    match t.handler p with
    | .selected req w => some (req.id, ⟨p, w, req.mode, t.serial⟩)
    | _ => none
  | _ => none

variable {P W Id : Type} [DecidableEq P] [DecidableEq W] [DecidableEq Id]

def step (s : State P W Id) : Event P W Id → Option (State P W Id)
  | .proxyMessage p m =>
    (SessionTable.step s.table (.handler p m.event)).map fun t =>
      { s with table := t, read := Function.update s.read p (s.read p ++ [m]) }
  | .workerMessage w f =>
    (SessionTable.step s.table (.reader w (.frame f.id f.cmd f.payload))).map fun t =>
      { s with table := t, got := Function.update s.got w (s.got w ++ [f]) }
  | .table e =>
    if admitted e = true then
      (SessionTable.step s.table e).map fun t =>
        { s with
          table := t
          stored :=
            match storesNow s.table e with
            | some (id, x) => Function.update s.stored id (some x)
            | none => s.stored }
    else none

/-! ## Streams -/

def framesOf {Id : Type} (ms : List (Message Id)) : List (Frame Id) :=
  ms.filterMap fun
    | .frame f => some f
    | .request _ => none

/-- The data chunks of one session among frames. -/
def dataFor (id : Id) (fs : List (Frame Id)) : List Payload := dataOf (packetsOf id fs)

theorem dataFor_append (id : Id) (fs gs : List (Frame Id)) :
    dataFor id (fs ++ gs) = dataFor id fs ++ dataFor id gs := by
  rw [dataFor, packetsOf_append, dataOf_append, ← dataFor, ← dataFor]

theorem dataFor_mono (id : Id) {fs gs : List (Frame Id)} (h : fs <+: gs) :
    dataFor id fs <+: dataFor id gs := by
  obtain ⟨rest, rfl⟩ := h
  rw [dataFor_append]
  exact List.prefix_append _ _

theorem dataFor_self (id : Id) (cmd : Command) (payload : Payload) :
    dataFor id [⟨id, cmd, payload⟩] = dataOf [(cmd, payload)] := by
  rw [dataFor, packetsOf_single_self]

theorem dataFor_other {id : Id} {f : Frame Id} (h : f.id ≠ id) : dataFor id [f] = [] := by
  rw [dataFor, packetsOf_single_other h, dataOf_nil]

theorem dataFor_plain {f : Frame Id} (id : Id) (h : f.cmd.carriesData = false) :
    dataFor id [f] = [] := by
  by_cases hid : f.id = id
  · subst hid
    rw [show f = ⟨f.id, f.cmd, f.payload⟩ from rfl, dataFor_self, dataOf_single, h]
    rfl
  · exact dataFor_other hid

theorem framesOf_append {Id : Type} (ms ns : List (Message Id)) :
    framesOf (ms ++ ns) = framesOf ms ++ framesOf ns := List.filterMap_append

/-- The data for a session given to a worker's channel, and to a proxy's. -/
def workerData (t : SessionTable.State P W Id) (w : W) (id : Id) : List Payload :=
  dataFor id ((t.toWorker w).sent.map Enqueued.frame)

def proxyData (t : SessionTable.State P W Id) (p : P) (id : Id) : List Payload :=
  dataFor id ((t.toProxy p).sent.map Enqueued.frame)

variable {watched : Id → Prop} {s t : SessionTable.State P W Id} {p q : P} {w : W} {id : Id}
  {x : Session P W}

/-! ## What is enqueued -/

def workerFrames (t : SessionTable.State P W Id) (w : W) : List (Frame Id) :=
  (t.toWorker w).sent.map Enqueued.frame

def proxyFrames (t : SessionTable.State P W Id) (p : P) : List (Frame Id) :=
  (t.toProxy p).sent.map Enqueued.frame

/-- The reason for a frame in a worker's channel. -/
inductive ForWorker (s : SessionTable.State P W Id) (e : SessionTable.Event P W Id)
    (x : Session P W) (f : Frame Id) : Prop where
  | close (hf : f.cmd = .close)
  | connect {p : P} {target : Payload} (he : e = .handler p .connectSent)
      (hp : s.handler p = .connecting f.id x target) (hf : f.cmd = x.mode.connectCommand)
  | data {p : P} (he : e = .handler p .dataSent) (hp : s.handler p = .sending f.id x f.cmd f.payload)

/-- The reason for a frame in a proxy's channel. -/
inductive ForProxy (s : SessionTable.State P W Id) (e : SessionTable.Event P W Id)
    (p : P) (f : Frame Id) : Prop where
  | plain (hf : f.cmd = .close ∨ f.cmd = .error)
  | forwarded {w : W} {x : Session P W} (he : e = .reader w (.forwarded true))
      (hw : s.reader w = .forwarding f.id x f.cmd f.payload) (hp : x.proxy = p)

inductive WorkerPush (s : SessionTable.State P W Id) (e : SessionTable.Event P W Id)
    (t : SessionTable.State P W Id) : Prop where
  | none (h : workerFrames t = workerFrames s)
  | one {x : Session P W} {f : Frame Id} (hf : ForWorker s e x f)
      (h : ∀ w, workerFrames t w = workerFrames s w ++ if w = x.worker then [f] else [])

inductive ProxyPush (s : SessionTable.State P W Id) (e : SessionTable.Event P W Id)
    (t : SessionTable.State P W Id) : Prop where
  | none (h : proxyFrames t = proxyFrames s)
  | one {p : P} {f : Frame Id} (hf : ForProxy s e p f)
      (h : ∀ q, proxyFrames t q = proxyFrames s q ++ if q = p then [f] else [])

section Push

variable {s t u : SessionTable.State P W Id} {e : SessionTable.Event P W Id} {p : P} {w : W}
  {id : Id} {x : Session P W}

omit [DecidableEq P] [DecidableEq Id] in
theorem workerFrames_push (s : SessionTable.State P W Id) (x : Session P W) (f : Frame Id) (w : W) :
    workerFrames (pushWorker s x f) w = workerFrames s w ++ if w = x.worker then [f] else [] := by
  by_cases hw : w = x.worker
  · subst hw
    simp [workerFrames, pushWorker]
  · simp [workerFrames, pushWorker, hw]

omit [DecidableEq P] [DecidableEq Id] in
theorem workerFrames_sendWorker {cmd : Command} {payload : Payload}
    (h : sendWorker s id x cmd payload = some u) (w : W) :
    workerFrames u w = workerFrames s w ++ if w = x.worker then [⟨id, cmd, payload⟩] else [] := by
  rw [sendWorker_eq h]
  exact workerFrames_push s x _ w

/-- A frame goes into the channel, or the connection is closed. -/
theorem proxyFrames_writeProxy {o : Option (Session P W)} {f : Frame Id} {ok : Bool}
    (h : writeProxy s p o f ok = some u) :
    ok = false ∧ u = s ∨
      ok = true ∧ ∀ q, proxyFrames u q = proxyFrames s q ++ if q = p then [f] else [] := by
  cases ok with
  | true =>
    simp only [writeProxy] at h
    split at h
    · cases h
      refine Or.inr ⟨rfl, fun q => ?_⟩
      by_cases hq : q = p
      · subst hq
        simp [proxyFrames]
      · simp [proxyFrames, hq]
    · cases h
  | false =>
    simp only [writeProxy] at h
    split at h
    · cases h
      exact Or.inl ⟨rfl, rfl⟩
    · cases h

omit [DecidableEq P] [DecidableEq Id] in
theorem WorkerPush.of_send {cmd : Command} {payload : Payload}
    (h : sendWorker s id x cmd payload = some u) (hf : ForWorker s e x ⟨id, cmd, payload⟩)
    (ht : workerFrames t = workerFrames u) : WorkerPush s e t := by
  refine .one hf fun w => ?_
  rw [ht]
  exact workerFrames_sendWorker h w

theorem ProxyPush.of_write {o : Option (Session P W)} {f : Frame Id} {ok : Bool}
    (h : writeProxy s p o f ok = some u) (hf : ok = true → ForProxy s e p f)
    (ht : proxyFrames t = proxyFrames u) : ProxyPush s e t := by
  rcases proxyFrames_writeProxy h with ⟨-, rfl⟩ | ⟨hok, hu⟩
  · exact .none ht
  · refine .one (hf hok) fun q => ?_
    rw [ht]
    exact hu q

theorem WorkerPush.of_write {o : Option (Session P W)} {f : Frame Id} {ok : Bool}
    (h : writeProxy s p o f ok = some u) (ht : workerFrames t = workerFrames u) :
    WorkerPush s e t := by
  refine .none (ht.trans ?_)
  rw [(writeProxy_some h).1]
  rfl

omit [DecidableEq Id] in
theorem ProxyPush.of_send {cmd : Command} {payload : Payload}
    (h : sendWorker s id x cmd payload = some u) (ht : proxyFrames t = proxyFrames u) :
    ProxyPush s e t := by
  refine .none (ht.trans ?_)
  rw [(sendWorker_some h).1]
  rfl

theorem handler_push {f : HandlerEvent W Id} (h : handlerStep s p f = some t) :
    WorkerPush s (.handler p f) t ∧ ProxyPush s (.handler p f) t := by
  cases handlerStep_move h with
  | connectSent hp hu =>
    exact ⟨.of_send hu (.connect rfl hp rfl) rfl, .of_send hu rfl⟩
  | dataSent hp hu =>
    exact ⟨.of_send hu (.data rfl hp) rfl, .of_send hu rfl⟩
  | closeSent _ hu =>
    exact ⟨.of_send hu (.close rfl) rfl, .of_send hu rfl⟩
  | reported _ hu =>
    exact ⟨.of_write hu rfl, .of_write hu (fun _ => .plain (Or.inr rfl)) rfl⟩
  | refused _ hu =>
    exact ⟨.of_write hu rfl, .of_write hu (fun _ => .plain (Or.inl rfl)) rfl⟩
  | _ => exact ⟨.none rfl, .none rfl⟩

theorem reader_push {f : ReaderEvent Id} (h : readerStep s w f = some t) :
    WorkerPush s (.reader w f) t ∧ ProxyPush s (.reader w f) t := by
  cases readerStep_move h with
  | forwarded hw hu =>
    refine ⟨.of_write hu rfl, .of_write hu (fun hok => ?_) rfl⟩
    exact .forwarded (by rw [hok]) hw rfl
  | closeForwarded _ hu =>
    exact ⟨.of_write hu rfl, .of_write hu (fun _ => .plain (Or.inl rfl)) rfl⟩
  | _ => exact ⟨.none rfl, .none rfl⟩

/-- Everything that goes into a channel of the broker, and why. -/
theorem step_push (h : SessionTable.step s e = some t) : WorkerPush s e t ∧ ProxyPush s e t := by
  cases e with
  | handler p f => exact handler_push h
  | reader w f => exact reader_push h
  | close p f =>
    cases closeStep_move h with
    | _ => exact ⟨.none rfl, .none rfl⟩
  | removal w f =>
    cases removeStep_move h with
    | notified _ hu =>
      exact ⟨.of_write hu rfl, .of_write hu (fun _ => .plain (Or.inl rfl)) rfl⟩
    | _ => exact ⟨.none rfl, .none rfl⟩
  | senderSent id x =>
    simp only [SessionTable.step] at h
    split at h
    · obtain ⟨u, hu, rfl⟩ := Option.map_eq_some_iff.mp h
      exact ⟨.of_send hu (.close rfl) rfl, .of_send hu rfl⟩
    · cases h
  | senderAborted id x err =>
    simp only [SessionTable.step] at h
    split at h
    · cases h
      exact ⟨.none rfl, .none rfl⟩
    · cases h
  | workerWriter w =>
    obtain ⟨r, hr, rfl⟩ := Option.map_eq_some_iff.mp h
    refine ⟨.none ?_, .none rfl⟩
    funext v
    by_cases hv : v = w
    · subst hv
      simp [workerFrames, (Fifo.pop_some hr).1]
    · simp [workerFrames, hv]
  | proxyWriter p =>
    obtain ⟨r, hr, rfl⟩ := Option.map_eq_some_iff.mp h
    refine ⟨.none rfl, .none ?_⟩
    funext q
    by_cases hq : q = p
    · subst hq
      simp [proxyFrames, (Fifo.pop_some hr).1]
    · simp [proxyFrames, hq]

theorem dataFor_append_if {fs gs : List (Frame Id)} {f : Frame Id} {c : Prop} [Decidable c]
    (i : Id) (h : gs = fs ++ if c then [f] else []) :
    dataFor i gs = if i = f.id ∧ c then dataFor i fs ++ dataFor f.id [f] else dataFor i fs := by
  rw [h, dataFor_append]
  by_cases hc : c
  · simp only [hc, and_true, if_true]
    by_cases hi : i = f.id
    · rw [if_pos hi, hi]
    · rw [if_neg hi, dataFor_other (Ne.symm hi), List.append_nil]
  · simp only [hc, and_false, if_false]
    exact List.append_nil _

/-- A frame without data leaves the streams as they are. -/
theorem dataFor_push {fs gs : List (Frame Id)} {f : Frame Id} {c : Prop} [Decidable c] (id : Id)
    (hf : f.cmd.carriesData = false) (h : gs = fs ++ if c then [f] else []) :
    dataFor id gs = dataFor id fs := by
  rw [h, dataFor_append]
  split
  · rw [dataFor_plain id hf, List.append_nil]
  · exact List.append_nil _

theorem connectCommand_plain (m : Mode) : m.connectCommand.carriesData = false := by
  cases m <;> rfl

omit [DecidableEq P] in
/-- The worker's data only grows when a handler sends it. -/
theorem WorkerPush.data (h : WorkerPush s e t) (he : ∀ p, e ≠ .handler p .dataSent) :
    workerData t = workerData s := by
  cases h with
  | none h =>
    funext w id
    exact congrArg (dataFor id) (congrFun h w)
  | @one x f hf h =>
    funext w id
    refine dataFor_push id ?_ (h w)
    cases hf with
    | close hf => rw [hf]; rfl
    | connect _ _ hf => rw [hf]; exact connectCommand_plain _
    | data he' _ => exact absurd he' (he _)

omit [DecidableEq W] in
theorem ProxyPush.data (h : ProxyPush s e t) (he : ∀ w, e ≠ .reader w (.forwarded true)) :
    proxyData t = proxyData s := by
  cases h with
  | none h =>
    funext p id
    exact congrArg (dataFor id) (congrFun h p)
  | one hf h =>
    funext p id
    refine dataFor_push id ?_ (h p)
    cases hf with
    | plain hf => rcases hf with hf | hf <;> rw [hf] <;> rfl
    | forwarded he' _ _ => exact absurd he' (he _)

end Push

/-! ## One session for each id -/

/-- The request of an `openProxySession` call that has not stored its session yet. -/
def pendingRequest : HandlerPc P W Id → Option (BrokerRequest Id)
  | .checked req => some req
  | .selected req _ => some req
  | _ => none

/-- Every session in the table and in anybody's hands is the one stored for its id. -/
structure Tracked (s : SessionTable.State P W Id) (st : Id → Option (Session P W))
    (rd : P → List (Message Id)) : Prop where
  table : ∀ id x, load s.sessions id = some x → st id = some x
  handler : ∀ p id x, (s.handler p).holds = some (id, x) → st id = some x ∧ x.proxy = p
  reader : ∀ w id x, (s.reader w).holds = some (id, x) → st id = some x ∧ x.worker = w
  pending : ∀ p req, pendingRequest (s.handler p) = some req → st req.id = none ∧ .request req ∈ rd p
  alone : ∀ p q req r, pendingRequest (s.handler p) = some req →
    pendingRequest (s.handler q) = some r → req.id = r.id → p = q
  requested : ∀ id x, st id = some x →
    ∃ req, .request req ∈ rd x.proxy ∧ req.id = id ∧ req.mode = x.mode

section Tracked

variable {st : Id → Option (Session P W)} {rd rd' : P → List (Message Id)}

omit [DecidableEq P] [DecidableEq W] [DecidableEq Id] in
theorem pendingRequest_of_attempt {pc : HandlerPc P W Id} (h : pc.attempt = none) : pendingRequest pc = none := by
  cases pc with
  | checked | selected => cases h
  | _ => rfl

section

omit [DecidableEq P] [DecidableEq W]

theorem tracked_initial :
    Tracked (SessionTable.initial P W Id) (fun _ => none) fun _ => ([] : List (Message Id)) := by
  refine ⟨?_, ?_, ?_, ?_, ?_, ?_⟩
  · intro id x h
    cases h
  · intro p id x h
    cases h
  · intro w id x h
    cases h
  · intro p req h
    cases h
  · intro p q req r h
    cases h
  · intro id x h
    cases h

/-- Nothing is requested or stored. -/
theorem Tracked.keep (hs : Tracked s st rd)
    (hl : ∀ id x, load t.sessions id = some x → load s.sessions id = some x)
    (hu : ∀ q req, pendingRequest (t.handler q) = some req → pendingRequest (s.handler q) = some req)
    (hh : ∀ q id x, (t.handler q).holds = some (id, x) →
      (s.handler q).holds = some (id, x) ∨ st id = some x ∧ x.proxy = q)
    (hr : ∀ w id x, (t.reader w).holds = some (id, x) →
      (s.reader w).holds = some (id, x) ∨ st id = some x ∧ x.worker = w)
    (hrd : ∀ q m, m ∈ rd q → m ∈ rd' q) : Tracked t st rd' := by
  refine ⟨fun id x h => hs.table id x (hl id x h), fun q id x h => ?_, fun w id x h => ?_,
    fun q req h => ?_, fun a b req r ha hb => hs.alone a b req r (hu a req ha) (hu b r hb),
    fun id x h => ?_⟩
  · rcases hh q id x h with h | h
    · exact hs.handler q id x h
    · exact h
  · rcases hr w id x h with h | h
    · exact hs.reader w id x h
    · exact h
  · obtain ⟨hnone, hreq⟩ := hs.pending q req (hu q req h)
    exact ⟨hnone, hrd q _ hreq⟩
  · obtain ⟨req, hreq, hid, hmode⟩ := hs.requested id x h
    exact ⟨req, hrd _ _ hreq, hid, hmode⟩

theorem load_of_onlyDeletes (h : OnlyDeletes s t) (id : Id) (x : Session P W)
    (hx : load t.sessions id = some x) : load s.sessions id = some x := by
  rcases TableIsolation.load_onlyDeletes h id with hl | hl
  · rw [← hl]
    exact hx
  · rw [hl] at hx
    cases hx

theorem Tracked.background (hs : Tracked s st rd) (h : Background s t) : Tracked t st rd := by
  refine hs.keep (load_of_onlyDeletes h.1) (fun q req hq => ?_) (fun q id x hq => Or.inl ?_)
    (fun w id x hw => Or.inl ?_) (fun _ _ hm => hm)
  · rw [h.1.1] at hq
    exact hq
  · rw [h.1.1] at hq
    exact hq
  · rw [h.2] at hw
    exact hw

end

theorem Tracked.readerStep {e : ReaderEvent Id} (hs : Tracked s st rd)
    (h : readerStep s w e = some t) : Tracked t st rd := by
  have hd := onlyDeletes_reader h
  obtain ⟨hhandler, pc, hreader, he⟩ := reader_effect h
  refine hs.keep (load_of_onlyDeletes hd) (fun q req hq => ?_) (fun q id x hq => Or.inl ?_)
    (fun v id x hv => ?_) (fun _ _ hm => hm)
  · rw [hhandler] at hq
    exact hq
  · rw [hhandler] at hq
    exact hq
  · by_cases hvw : v = w
    · subst hvw
      rw [hreader, Function.update_self] at hv
      generalize t.sessions = m at he
      cases he with
      | moved hh =>
        rcases hh id x hv with ho | ⟨hl, hx⟩
        · exact Or.inl ho
        · exact Or.inr ⟨hs.table id x hl, hx⟩
      | deleted i y hw hn =>
        rw [hn] at hv
        cases hv
    · rw [hreader, Function.update_of_ne hvw] at hv
      exact Or.inl hv

section

omit [DecidableEq W]

/-- The handler of `p` moves on; neither a check is passed nor a session stored. -/
theorem Tracked.moved {pc : HandlerPc P W Id} (hs : Tracked s st rd) (hr : t.reader = s.reader)
    (ht : t.handler = Function.update s.handler p pc)
    (hu : ∀ req, pendingRequest pc = some req → pendingRequest (s.handler p) = some req)
    (hl : ∀ id x, load t.sessions id = some x → load s.sessions id = some x)
    (hh : ∀ id x, pc.holds = some (id, x) → (s.handler p).holds = some (id, x) ∨
      load s.sessions id = some x ∧ x.proxy = p)
    (hrd : ∀ q m, m ∈ rd q → m ∈ rd' q) : Tracked t st rd' := by
  refine hs.keep hl (fun q req hq => ?_) (fun q id x hq => ?_) (fun w id x hw => Or.inl ?_) hrd
  · by_cases hqp : q = p
    · subst hqp
      rw [ht, Function.update_self] at hq
      exact hu req hq
    · rw [ht, Function.update_of_ne hqp] at hq
      exact hq
  · by_cases hqp : q = p
    · subst hqp
      rw [ht, Function.update_self] at hq
      rcases hh id x hq with ho | ⟨hl, hx⟩
      · exact Or.inl ho
      · exact Or.inr ⟨hs.table id x hl, hx⟩
    · rw [ht, Function.update_of_ne hqp] at hq
      exact Or.inl hq
  · rw [hr] at hw
    exact hw

/-- A request no handler has read before passes its check. -/
theorem Tracked.passed {req : BrokerRequest Id} (hs : Tracked s st rd) (hr : t.reader = s.reader)
    (ht : t.handler = Function.update s.handler p (.checked req)) (hm : t.sessions = s.sessions)
    (hnew : ∀ q r, .request r ∈ rd q → r.id ≠ req.id) (hreq : .request req ∈ rd' p)
    (hrd : ∀ q m, m ∈ rd q → m ∈ rd' q) : Tracked t st rd' := by
  have hback : ∀ q r, pendingRequest (t.handler q) = some r →
      q = p ∧ r = req ∨ pendingRequest (s.handler q) = some r := by
    intro q r hq
    by_cases hqp : q = p
    · rw [hqp, ht, Function.update_self] at hq
      cases hq
      exact Or.inl ⟨hqp, rfl⟩
    · rw [ht, Function.update_of_ne hqp] at hq
      exact Or.inr hq
  have hnone : st req.id = none := by
    cases hst : st req.id with
    | none => rfl
    | some x =>
      obtain ⟨r, hr, hid, -⟩ := hs.requested _ _ hst
      exact absurd hid (hnew _ r hr)
  refine ⟨fun id x h => hs.table id x (by rw [← hm]; exact h), fun q id x h => ?_,
    fun w id x h => ?_, fun q r h => ?_, fun a b r u ha hb hid => ?_, fun id x h => ?_⟩
  · by_cases hqp : q = p
    · rw [hqp, ht, Function.update_self] at h
      cases h
    · rw [ht, Function.update_of_ne hqp] at h
      exact hs.handler q id x h
  · rw [hr] at h
    exact hs.reader w id x h
  · rcases hback q r h with ⟨rfl, rfl⟩ | h
    · exact ⟨hnone, hreq⟩
    · exact ⟨(hs.pending q r h).1, hrd q _ (hs.pending q r h).2⟩
  · rcases hback a r ha with ⟨rfl, rfl⟩ | ha
    · rcases hback b u hb with ⟨rfl, -⟩ | hb
      · rfl
      · exact absurd hid.symm (hnew b u (hs.pending b u hb).2)
    · rcases hback b u hb with ⟨rfl, rfl⟩ | hb
      · exact absurd hid (hnew a r (hs.pending a r ha).2)
      · exact hs.alone a b r u ha hb hid
  · obtain ⟨r, hr, hid, hmode⟩ := hs.requested id x h
    exact ⟨r, hrd _ _ hr, hid, hmode⟩

theorem Tracked.stored {req : BrokerRequest Id} {y : Session P W} (hs : Tracked s st rd)
    (hr : t.reader = s.reader) (hp : pendingRequest (s.handler p) = some req) (hy : y.proxy = p)
    (hmode : y.mode = req.mode)
    (ht : t.handler = Function.update s.handler p (.connecting req.id y req.target))
    (hm : t.sessions = SyncMap.store s.sessions req.id y) :
    Tracked t (Function.update st req.id (some y)) rd := by
  obtain ⟨hnone, hreq⟩ := hs.pending p req hp
  have hkeep : ∀ {id x}, st id = some x → Function.update st req.id (some y) id = some x := by
    intro id x h
    have hne : id ≠ req.id := by
      rintro rfl
      rw [hnone] at h
      cases h
    rw [Function.update_of_ne hne]
    exact h
  refine ⟨fun id x h => ?_, fun q id x h => ?_, fun w id x h => ?_, fun q r h => ?_,
    fun a b r u ha hb => ?_, fun id x h => ?_⟩
  · rw [hm] at h
    rcases load_of_store h with ⟨rfl, rfl⟩ | ⟨-, hl⟩
    · rw [Function.update_self]
    · exact hkeep (hs.table id x hl)
  · by_cases hqp : q = p
    · rw [hqp, ht, Function.update_self] at h
      cases h
      exact ⟨Function.update_self .., by rw [hy, hqp]⟩
    · rw [ht, Function.update_of_ne hqp] at h
      exact ⟨hkeep (hs.handler q id x h).1, (hs.handler q id x h).2⟩
  · rw [hr] at h
    exact ⟨hkeep (hs.reader w id x h).1, (hs.reader w id x h).2⟩
  · by_cases hqp : q = p
    · rw [hqp, ht, Function.update_self] at h
      cases h
    · rw [ht, Function.update_of_ne hqp] at h
      have hne : r.id ≠ req.id := fun hid => hqp (hs.alone q p r req h hp hid)
      rw [Function.update_of_ne hne]
      exact hs.pending q r h
  · by_cases hap : a = p
    · rw [hap, ht, Function.update_self] at ha
      cases ha
    · by_cases hbp : b = p
      · rw [hbp, ht, Function.update_self] at hb
        cases hb
      · rw [ht, Function.update_of_ne hap] at ha
        rw [ht, Function.update_of_ne hbp] at hb
        exact hs.alone a b r u ha hb
  · by_cases hid : id = req.id
    · subst hid
      rw [Function.update_self] at h
      cases h
      rw [hy]
      exact ⟨req, hreq, rfl, hmode.symm⟩
    · rw [Function.update_of_ne hid] at h
      exact hs.requested id x h

end

theorem Tracked.handlerStep {f : HandlerEvent W Id} (hs : Tracked s st rd)
    (hnew : ∀ req, f = .openRequest req →
      (∀ q r, .request r ∈ rd q → r.id ≠ req.id) ∧ .request req ∈ rd' p)
    (hstore : f ≠ .store) (hrd : ∀ q m, m ∈ rd q → m ∈ rd' q)
    (h : handlerStep s p f = some t) : Tracked t st rd' := by
  obtain ⟨hr, pc, ht, he⟩ := handler_effect h
  have hnone : ∀ {pc : HandlerPc P W Id}, pc.attempt = none → ∀ req, pendingRequest pc ≠ some req := by
    intro pc hpc req hreq
    rw [pendingRequest_of_attempt hpc] at hreq
    cases hreq
  generalize hm : t.sessions = m at he
  cases he with
  | passed req hn => exact hs.passed hr ht hm (hnew req rfl).1 (hnew req rfl).2 hrd
  | chosen req w hp =>
    refine hs.moved hr ht (fun r hreq => ?_) (fun id x hx => by rw [← hm]; exact hx)
      (fun id x hx => by cases hx) hrd
    rw [hp]
    exact hreq
  | stored req w hp => exact absurd rfl hstore
  | moved f pc hpc hh =>
    exact hs.moved hr ht (fun req hreq => absurd hreq (hnone hpc req))
      (fun id x hx => by rw [← hm]; exact hx) hh hrd
  | deleted f pc i y hpc hy hh =>
    refine hs.moved hr ht (fun req hreq => absurd hreq (hnone hpc req)) (fun id x hx => ?_)
      (fun id x hx => Or.inl (hh id x hx)) hrd
    rw [hm, load_delete] at hx
    split at hx
    · cases hx
    · exact hx

end Tracked

/-! ## From the proxy to the worker -/

/-- The data of a session a handler has in hand. -/
def handlerHand (id : Id) : HandlerPc P W Id → Hand Payload
  | .sending i _ cmd payload => if i = id then .carrying (dataOf [(cmd, payload)]) else .free
  | .sendFailed i _ _ => if i = id then .lost else .free
  | _ => .free

/-- What a handler does with data after it has been read. -/
inductive HandlerStream (s : SessionTable.State P W Id) (p : P) : SessionTable.State P W Id → Prop where
  | sent {i : Id} {x : Session P W} {cmd : Command} {payload : Payload}
      (hp : s.handler p = .sending i x cmd payload) :
      HandlerStream s p (setHandler (pushWorker s x ⟨i, cmd, payload⟩) p .reading)
  | aborted {i : Id} {x : Session P W} {cmd : Command} {payload : Payload} {err : SendError}
      (hp : s.handler p = .sending i x cmd payload) :
      HandlerStream s p (setHandler s p (.sendFailed i x err))
  | dropped {i : Id} {x : Session P W} {err : SendError} (hp : s.handler p = .sendFailed i x err) :
      HandlerStream s p (setHandler (delete s i) p (.refusing i x))
  | aside {t : SessionTable.State P W Id} (hp : ∀ id, handlerHand id (s.handler p) = .free)
      (ht : ∀ id, handlerHand id (t.handler p) = .free) (hdata : workerData t = workerData s) :
      HandlerStream s p t

theorem HandlerStream.moved {pc : HandlerPc P W Id} {u : SessionTable.State P W Id}
    (hp : ∀ id, handlerHand id (s.handler p) = .free) (hpc : ∀ id, handlerHand id pc = .free)
    (hdata : workerData u = workerData s) : HandlerStream s p (setHandler u p pc) := by
  refine .aside hp (fun id => ?_) hdata
  rw [setHandler_handler, Function.update_self]
  exact hpc id

theorem handler_stream {f : HandlerEvent W Id}
    (hf : admitted (.handler p f : SessionTable.Event P W Id) = true)
    (h : handlerStep s p f = some t) : HandlerStream s p t := by
  have hfree : ∀ {pc : HandlerPc P W Id}, s.handler p = pc → (∀ id, handlerHand id pc = .free) →
      ∀ id, handlerHand id (s.handler p) = .free := by
    intro pc hp hpc
    rw [hp]
    exact hpc
  have hdata := (handler_push h).1.data
  cases handlerStep_move h with
  | known | checked | ignored | data | close => cases hf
  | dataSent hp hu =>
    rw [sendWorker_eq hu]
    exact .sent hp
  | dataAborted hp =>
    exact .aborted hp
  | dataDelete hp =>
    exact .dropped hp
  | connectSent hp =>
    refine .aside (hfree hp fun _ => rfl) (fun i => ?_) (hdata fun _ => by simp)
    rw [show (_ : SessionTable.State P W Id).handler p = .reading from Function.update_self ..]
    rfl
  | closeSent hp | reported hp | refused hp =>
    exact .moved (hfree hp fun _ => rfl) (fun _ => rfl) (hdata fun _ => by simp)
  | selected hp | noWorkers hp | store hp | connectAborted hp | connectDelete hp
  | closeAborted hp | closeDelete hp | readFailed hp =>
    exact .moved (hfree hp fun _ => rfl) (fun _ => rfl) rfl

/-- What a handler does with a frame it reads. -/
theorem handler_frame {cmd : Command} {payload : Payload}
    (h : handlerStep s p (.frame id cmd payload) = some t) :
    s.handler p = .reading ∧ t.sessions = s.sessions ∧ workerData t = workerData s ∧
      proxyData t = proxyData s ∧
      ((∃ x, load s.sessions id = some x ∧ x.proxy = p ∧
          t.handler = Function.update s.handler p (.sending id x cmd payload)) ∨
        (∀ i, handlerHand i (t.handler p) = .free) ∧
          (∀ q, q ≠ p → t.handler q = s.handler q) ∧
          (cmd.carriesData = true → ∀ x, load s.sessions id = some x → x.proxy ≠ p)) := by
  cases handlerStep_move h with
  | ignored hp hno =>
    refine ⟨hp, rfl, rfl, rfl, Or.inr ⟨fun i => ?_, fun _ _ => rfl, fun hc x hl hx => ?_⟩⟩
    · rw [hp]
      rfl
    · rw [(hno x hl hx).1] at hc
      cases hc
  | @data _ _ _ x hp hl hx => exact ⟨hp, rfl, rfl, rfl, Or.inl ⟨x, hl, hx, rfl⟩⟩
  | @close _ _ x hp =>
    refine ⟨hp, rfl, rfl, rfl, Or.inr ⟨fun i => ?_, fun q hq => ?_, (by simp)⟩⟩
    · rw [show (_ : SessionTable.State P W Id).handler p = .sendingClose id x from
        Function.update_self ..]
      rfl
    · exact Function.update_of_ne hq ..

/-- The handlers as routers: the data of a session given to its worker, against what
has been read of it from its proxy. -/
abbrev Upward (watched : Id → Prop) (s : SessionTable.State P W Id)
    (st : Id → Option (Session P W)) (rd : P → List (Message Id)) : Prop :=
  Routed watched Session.proxy Session.worker st (fun id x => load s.sessions id = some x)
    (fun id p => handlerHand id (s.handler p)) (fun id p => dataFor id (framesOf (rd p)))
    fun id w => workerData s w id

section Upward

variable {st : Id → Option (Session P W)} {rd : P → List (Message Id)}

omit [DecidableEq W] in
/-- A handler that has moved, as one function of the hands. -/
theorem handlerHand_update {pc : HandlerPc P W Id} (id : Id) (q : P) :
    handlerHand id (Function.update s.handler p pc q) =
      if q = p then handlerHand id pc else handlerHand id (s.handler q) := by
  by_cases hq : q = p
  · rw [hq, Function.update_self, if_pos rfl]
  · rw [Function.update_of_ne hq, if_neg hq]

theorem HandlerStream.move (hk : Tracked s st rd) (h : HandlerStream s p t)
    {pc : HandlerPc P W Id} (ht : t.handler = Function.update s.handler p pc) :
    RouterMove Session.proxy Session.worker st (fun id x => load t.sessions id = some x)
      (fun id p => handlerHand id (s.handler p)) (fun id p => handlerHand id (t.handler p))
      (fun id w => workerData s w id) fun id w => workerData t w id := by
  cases h with
  | aside hp hpc hdata =>
    refine .keep (fun id q => ?_) fun id w => by rw [hdata]
    by_cases hq : q = p
    · rw [hq, hp, hpc]
    · rw [ht, Function.update_of_ne hq]
  | @sent i x cmd payload hp =>
    obtain ⟨hst, hxp⟩ := hk.handler p i x (by rw [hp]; rfl)
    have hcarry : handlerHand i (s.handler x.proxy) = .carrying (dataOf [(cmd, payload)]) := by
      rw [hxp, hp, handlerHand, if_pos rfl]
    refine .sent hst hcarry (fun id q => ?_) fun id w => ?_
    · show handlerHand id (Function.update s.handler p .reading q) = _
      rw [handlerHand_update, hxp]
      by_cases hq : q = p
      · subst hq
        rw [if_pos rfl, hp]
        by_cases hid : id = i
        · rw [if_pos ⟨hid, rfl⟩]
          rfl
        · rw [if_neg fun hc => hid hc.1]
          simp [handlerHand, Ne.symm hid]
      · rw [if_neg hq, if_neg fun hc => hq hc.2]
    · rw [← dataFor_self i cmd payload]
      exact dataFor_append_if id (workerFrames_push s x ⟨i, cmd, payload⟩ w)
  | @aborted i x cmd payload err hp =>
    refine .lost (fun id q => ?_) fun id w => rfl
    show handlerHand id (Function.update s.handler p _ q) = _ ∨ _
    rw [handlerHand_update]
    by_cases hq : q = p
    · subst hq
      rw [if_pos rfl, hp]
      by_cases hid : i = id
      · right
        show handlerHand id (Function.update s.handler q _ q) = _
        rw [Function.update_self, handlerHand, if_pos hid]
      · left
        rw [handlerHand, handlerHand, if_neg hid, if_neg hid]
    · rw [if_neg hq]
      exact Or.inl rfl
  | @dropped i x err hp =>
    refine .dropped i (fun y => ?_) (fun id q => ?_) fun id w => rfl
    · show load (SyncMap.delete s.sessions i) i ≠ some y
      rw [load_delete_self]
      nofun
    · show handlerHand id (Function.update s.handler p _ q) = _ ∨ _
      rw [handlerHand_update]
      by_cases hq : q = p
      · subst hq
        rw [if_pos rfl, hp]
        by_cases hid : id = i
        · right
          refine ⟨hid, ?_⟩
          show handlerHand id (Function.update s.handler q _ q) = _
          rw [Function.update_self]
          rfl
        · left
          simp [handlerHand, Ne.symm hid]
      · rw [if_neg hq]
        exact Or.inl rfl

theorem framesOf_update (q : P) (m : Message Id) (id : Id) :
    dataFor id (framesOf (Function.update rd p (rd p ++ [m]) q)) =
      dataFor id (framesOf (rd q)) ++ if q = p then dataFor id (framesOf [m]) else [] := by
  by_cases hq : q = p
  · subst hq
    rw [Function.update_self, if_pos rfl, framesOf_append, dataFor_append]
  · rw [Function.update_of_ne hq, if_neg hq, List.append_nil]

/-- The data of a frame counts for its own session and its own reader. -/
theorem framesOf_frame (f : Frame Id) (id : Id) (q : P) :
    dataFor id (framesOf (Function.update rd p (rd p ++ [.frame f]) q)) =
      if id = f.id ∧ q = p then dataFor id (framesOf (rd q)) ++ dataFor f.id [f]
      else dataFor id (framesOf (rd q)) := by
  rw [framesOf_update, show framesOf [Message.frame f] = [f] from rfl]
  by_cases hid : id = f.id
  · subst hid
    by_cases hq : q = p
    · rw [if_pos hq, if_pos ⟨rfl, hq⟩]
    · rw [if_neg hq, if_neg fun hc => hq hc.2, List.append_nil]
  · rw [dataFor_other (Ne.symm hid), ite_self, List.append_nil, if_neg fun hc => hid hc.1]

theorem Upward.frame {f : Frame Id} (hs : Upward watched s st rd) (hk : Tracked s st rd)
    (hfed : watched f.id → f.cmd.carriesData = true → ∃ x, st f.id = some x)
    (h : handlerStep s p (.frame f.id f.cmd f.payload) = some t) :
    Upward watched t st (Function.update rd p (rd p ++ [.frame f])) := by
  obtain ⟨hp, hsessions, hdata, -, hcase⟩ := handler_frame h
  have hplain : f.cmd.carriesData = false → dataFor f.id [f] = [] := dataFor_plain f.id
  have hread : ∀ id, handlerHand id (s.handler p) = .free := by
    intro id
    rw [hp]
    rfl
  unfold Upward
  rw [hdata, hsessions]
  rcases hcase with ⟨x, hx, hxp, ht⟩ | ⟨hfree, hother, hnot⟩
  · refine hs.take (dataOf [(f.cmd, f.payload)]) (hk.table f.id x hx) hx (by rw [hxp]; exact hread f.id) (fun id q => ?_)
      fun id q => ?_
    · rw [ht, handlerHand_update, hxp]
      by_cases hq : q = p
      · subst hq
        rw [if_pos rfl, handlerHand, hread]
        by_cases hid : f.id = id
        · rw [if_pos hid, if_pos ⟨hid.symm, rfl⟩]
        · rw [if_neg hid, if_neg fun hc => hid hc.1.symm]
      · rw [if_neg hq, if_neg fun hc => hq hc.2]
    · rw [framesOf_frame, hxp, show dataFor f.id [f] = dataOf [(f.cmd, f.payload)] from
        dataFor_self f.id f.cmd f.payload]
  · have hsame : (fun id q => handlerHand id (t.handler q)) =
        fun id q => handlerHand id (s.handler q) := by
      funext id q
      by_cases hq : q = p
      · rw [hq, hfree, hread]
      · rw [hother q hq]
    rw [hsame]
    refine hs.miss (fun hid hnone => ?_) (hread f.id) ?_ (framesOf_frame f)
    · refine hplain ?_
      by_contra hc
      obtain ⟨x, hx⟩ := hfed hid (by simpa using hc)
      rw [hnone] at hx
      cases hx
    · cases hc : f.cmd.carriesData with
      | true => exact Or.inr fun x hx hlive => hnot hc x hlive hx
      | false => exact Or.inl (hplain hc)

theorem Upward.request {req : BrokerRequest Id} (hs : Upward watched s st rd)
    (h : handlerStep s p (.openRequest req) = some t) :
    Upward watched t st (Function.update rd p (rd p ++ [.request req])) := by
  have hread : (fun id q => dataFor id (framesOf (Function.update rd p (rd p ++ [.request req]) q))) =
      fun id q => dataFor id (framesOf (rd q)) := by
    funext id q
    rw [framesOf_update, show framesOf [Message.request req] = [] from rfl]
    simp [dataFor]
  unfold Upward
  rw [hread]
  cases handlerStep_move h with
  | known => exact hs
  | checked hp =>
    refine hs.move (.keep (fun id q => ?_) fun _ _ => rfl) fun _ _ hx => hx
    rw [setHandler_handler, handlerHand_update]
    split
    · rename_i hq
      rw [hq, hp]
      rfl
    · rfl

end Upward

/-! ## From the worker to the proxy -/

/-- The data of a session a reader has in hand. -/
def readerHand (id : Id) : ReaderPc P W Id → Hand Payload
  | .forwarding i _ cmd payload => if i = id then .carrying (dataOf [(cmd, payload)]) else .free
  | .writeFailed i _ => if i = id then .lost else .free
  | _ => .free

/-- The readers as routers: the data of a session given to its proxy, against what
has been read of it from its worker. -/
abbrev Downward (watched : Id → Prop) (s : SessionTable.State P W Id)
    (st : Id → Option (Session P W)) (got : W → List (Frame Id)) : Prop :=
  Routed watched Session.worker Session.proxy st (fun id x => load s.sessions id = some x)
    (fun id w => readerHand id (s.reader w)) (fun id w => dataFor id (got w))
    fun id p => proxyData s p id

section Downward

variable {st : Id → Option (Session P W)} {rd : P → List (Message Id)} {got : W → List (Frame Id)}

omit [DecidableEq P] in
theorem readerHand_update {pc : ReaderPc P W Id} (id : Id) (v : W) :
    readerHand id (Function.update s.reader w pc v) =
      if v = w then readerHand id pc else readerHand id (s.reader v) := by
  by_cases hv : v = w
  · rw [hv, Function.update_self, if_pos rfl]
  · rw [Function.update_of_ne hv, if_neg hv]

/-- A reader moves without data in its hands. -/
theorem reader_aside {pc : ReaderPc P W Id} {u : SessionTable.State P W Id}
    {live : Id → Session P W → Prop} (hw : ∀ id, readerHand id (s.reader w) = .free)
    (hpc : ∀ id, readerHand id pc = .free) (hreader : u.reader = s.reader)
    (hdata : proxyData u = proxyData s) :
    RouterMove Session.worker Session.proxy st live (fun id w => readerHand id (s.reader w))
      (fun id v => readerHand id ((setReader u w pc).reader v)) (fun id p => proxyData s p id)
      fun id p => proxyData (setReader u w pc) p id := by
  refine .keep (fun id v => ?_) fun id q => ?_
  · show readerHand id (Function.update u.reader w pc v) = _
    rw [hreader, readerHand_update]
    split
    · rename_i hv
      rw [hpc, hv, hw]
    · rfl
  · show proxyData u q id = _
    rw [hdata]

theorem reader_move {f : ReaderEvent Id} (hk : Tracked s st rd)
    (hf : admitted (.reader w f : SessionTable.Event P W Id) = true)
    (h : readerStep s w f = some t) :
    RouterMove Session.worker Session.proxy st (fun id x => load t.sessions id = some x)
      (fun id w => readerHand id (s.reader w)) (fun id w => readerHand id (t.reader w))
      (fun id p => proxyData s p id) fun id p => proxyData t p id := by
  have hfree : ∀ {pc : ReaderPc P W Id}, s.reader w = pc → (∀ id, readerHand id pc = .free) →
      ∀ id, readerHand id (s.reader w) = .free := by
    intro pc hw hpc
    rw [hw]
    exact hpc
  have hdata := (reader_push h).2.data
  cases readerStep_move h with
  | ignored | frame | close => cases hf
  | @forwarded i x cmd payload _ u hw hu =>
    obtain ⟨hst, hxw⟩ := hk.reader w i x (by rw [hw]; rfl)
    have hreader : u.reader = s.reader := by rw [(writeProxy_some hu).1]
    rcases proxyFrames_writeProxy hu with ⟨rfl, rfl⟩ | ⟨rfl, hframes⟩
    · refine .lost (fun id v => ?_) fun id q => rfl
      show readerHand id (Function.update u.reader w (.writeFailed i x) v) = _ ∨
        readerHand id (Function.update u.reader w (.writeFailed i x) v) = _
      rw [readerHand_update]
      by_cases hv : v = w
      · subst hv
        rw [if_pos rfl, hw, readerHand, readerHand]
        by_cases hid : i = id
        · rw [if_pos hid]
          exact Or.inr rfl
        · rw [if_neg hid, if_neg hid]
          exact Or.inl rfl
      · rw [if_neg hv]
        exact Or.inl rfl
    · have hcarry : readerHand i (s.reader x.worker) = .carrying (dataOf [(cmd, payload)]) := by
        rw [hxw, hw, readerHand, if_pos rfl]
      refine .sent hst hcarry (fun id v => ?_) fun id q => ?_
      · show readerHand id (Function.update u.reader w .reading v) = _
        rw [hreader, readerHand_update, hxw]
        by_cases hv : v = w
        · subst hv
          rw [if_pos rfl, hw]
          by_cases hid : id = i
          · rw [if_pos ⟨hid, rfl⟩]
            rfl
          · rw [if_neg fun hc => hid hc.1]
            simp [readerHand, Ne.symm hid]
        · rw [if_neg hv, if_neg fun hc => hv hc.2]
      · rw [← dataFor_self i cmd payload]
        exact dataFor_append_if id (hframes q)
  | @failDelete i _ hw =>
    refine .dropped i (fun y => ?_) (fun id v => ?_) fun id q => rfl
    · show load (SyncMap.delete s.sessions i) i ≠ some y
      rw [load_delete_self]
      simp
    · show readerHand id (Function.update s.reader w .reading v) = _ ∨
        _ ∧ readerHand id (Function.update s.reader w .reading v) = _
      rw [readerHand_update]
      by_cases hv : v = w
      · subst hv
        rw [if_pos rfl, hw]
        by_cases hid : id = i
        · exact Or.inr ⟨hid, rfl⟩
        · left
          simp [readerHand, Ne.symm hid]
      · rw [if_neg hv]
        exact Or.inl rfl
  | closeForwarded hw hu =>
    refine reader_aside (hfree hw fun _ => rfl) (fun _ => rfl) ?_ (hdata fun _ => by simp)
    rw [(writeProxy_some hu).1]
  | closeDelete hw =>
    exact reader_aside (hfree hw fun _ => rfl) (fun _ => rfl) rfl rfl
  | readFailed hw =>
    exact reader_aside (hfree hw fun _ => rfl) (fun _ => rfl) rfl rfl

/-- What a reader does with a frame it reads. -/
theorem reader_frame {cmd : Command} {payload : Payload}
    (h : readerStep s w (.frame id cmd payload) = some t) :
    s.reader w = .reading ∧ t.sessions = s.sessions ∧ workerData t = workerData s ∧
      proxyData t = proxyData s ∧
      ((∃ x, load s.sessions id = some x ∧ x.worker = w ∧
          t.reader = Function.update s.reader w (.forwarding id x cmd payload)) ∨
        (∀ i, readerHand i (t.reader w) = .free) ∧
          (∀ v, v ≠ w → t.reader v = s.reader v) ∧
          (cmd.carriesData = true → ∀ x, load s.sessions id = some x → x.worker ≠ w)) := by
  cases readerStep_move h with
  | ignored hw hno =>
    refine ⟨hw, rfl, rfl, rfl, Or.inr ⟨fun i => ?_, fun _ _ => rfl, fun hc x hl hx => ?_⟩⟩
    · rw [hw]
      rfl
    · rw [(hno x hl hx).1] at hc
      cases hc
  | @frame _ _ _ x hw hl hx => exact ⟨hw, rfl, rfl, rfl, Or.inl ⟨x, hl, hx, rfl⟩⟩
  | @close _ payload x hw =>
    refine ⟨hw, rfl, rfl, rfl, Or.inr ⟨fun i => ?_, fun v hv => ?_, (by simp)⟩⟩
    · rw [show (_ : SessionTable.State P W Id).reader w = .forwardingClose id x payload from
        Function.update_self ..]
      rfl
    · exact Function.update_of_ne hv ..

/-- The data of a frame counts for its own session and its own reader. -/
theorem got_frame (f : Frame Id) (id : Id) (v : W) :
    dataFor id (Function.update got w (got w ++ [f]) v) =
      if id = f.id ∧ v = w then dataFor id (got v) ++ dataFor f.id [f] else dataFor id (got v) := by
  by_cases hv : v = w
  · subst hv
    rw [Function.update_self, dataFor_append]
    by_cases hid : id = f.id
    · rw [if_pos ⟨hid, rfl⟩, hid]
    · rw [if_neg fun hc => hid hc.1, dataFor_other (Ne.symm hid), List.append_nil]
  · rw [Function.update_of_ne hv, if_neg fun hc => hv hc.2]

theorem Downward.frame {f : Frame Id} (hs : Downward watched s st got) (hk : Tracked s st rd)
    (hfed : watched f.id → f.cmd.carriesData = true → ∃ x, st f.id = some x)
    (h : readerStep s w (.frame f.id f.cmd f.payload) = some t) :
    Downward watched t st (Function.update got w (got w ++ [f])) := by
  obtain ⟨hw, hsessions, -, hdata, hcase⟩ := reader_frame h
  have hplain : f.cmd.carriesData = false → dataFor f.id [f] = [] := dataFor_plain f.id
  have hread : ∀ id, readerHand id (s.reader w) = .free := by
    intro id
    rw [hw]
    rfl
  unfold Downward
  rw [hdata, hsessions]
  rcases hcase with ⟨x, hx, hxw, ht⟩ | ⟨hfree, hother, hnot⟩
  · refine hs.take (dataOf [(f.cmd, f.payload)]) (hk.table f.id x hx) hx (by rw [hxw]; exact hread f.id)
      (fun id v => ?_) fun id v => ?_
    · rw [ht, readerHand_update, hxw]
      by_cases hv : v = w
      · subst hv
        rw [if_pos rfl, readerHand, hread]
        by_cases hid : f.id = id
        · rw [if_pos hid, if_pos ⟨hid.symm, rfl⟩]
        · rw [if_neg hid, if_neg fun hc => hid hc.1.symm]
      · rw [if_neg hv, if_neg fun hc => hv hc.2]
    · rw [got_frame, hxw, show dataFor f.id [f] = dataOf [(f.cmd, f.payload)] from
        dataFor_self f.id f.cmd f.payload]
  · have hsame : (fun id v => readerHand id (t.reader v)) = fun id v => readerHand id (s.reader v) := by
      funext id v
      by_cases hv : v = w
      · rw [hv, hfree, hread]
      · rw [hother v hv]
    rw [hsame]
    refine hs.miss (fun hid hnone => ?_) (hread f.id) ?_ (got_frame f)
    · refine hplain ?_
      by_contra hc
      obtain ⟨x, hx⟩ := hfed hid (by simpa using hc)
      rw [hnone] at hx
      cases hx
    · cases hc : f.cmd.carriesData with
      | true => exact Or.inr fun x hx hlive => hnot hc x hlive hx
      | false => exact Or.inl (hplain hc)

end Downward

end SplitProxy.TableStreams
