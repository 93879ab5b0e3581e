import SplitProxy.MessageSize

/-!
# Which messages stay within the read limit

Every message on a link is of a bounded size but one: the open request for an
HTTP CONNECT target, which repeats a text of the client of any length.
-/
namespace SplitProxy.MessageSize

open Runs GoText NetIP Routing HTTPConnect Socks5

/-! ## Clients -/

/-- A route that is direct or has at most 255 characters. -/
def Named (S : HandleConn.Proxy) (route : Route) : Prop :=
  route = S.routeDirect ∨ (decode route).length ≤ 255

/-- The routes are named, and a datagram fits the buffer it is read into. -/
def Possible (S : HandleConn.Proxy) : HandleConn.Event → Prop
  | .serve dns routes => ∀ host, Named S (resolveRoute S.routeDirect dns routes host)
  | .command dns routes => ∀ host, Named S (resolveRoute S.routeDirect dns routes host)
  | .datagram data dns routes =>
    data.length ≤ readBuffer ∧ ∀ host, Named S (resolveRoute S.routeDirect dns routes host)
  | _ => True

/-- A step of a client's goroutine as it can happen. -/
structure ClientEvent (S : HandleConn.Proxy) where
  event : HandleConn.Event
  possible : Possible S event

/-- What a SOCKS5 client has the proxy work on is bounded. -/
def Sized (S : HandleConn.Proxy) : HandleConn.Pc → Prop
  | .connecting handler _ address route =>
    Named S route ∧ (handler = .socks5 → address.length ≤ 263)
  | .forwarding _ packet route =>
    Named S route ∧ (joinHostPort packet.host (itoa packet.port)).length ≤ 263 ∧
      packet.payload.length ≤ readBuffer
  | _ => True

/-- What a step did, the latest first. -/
def newActions (s t : HandleConn.State) : List HandleConn.Action :=
  t.log.take (t.log.length - s.log.length)

/-- The session a step opens. -/
def opened (S : HandleConn.Proxy) (s : HandleConn.State) :
    HandleConn.Event → Option (Route × Bytes × Mode)
  | .openSession link _ =>
    match s.pc with
    | .connecting _ _ address route =>
      if link ∧ route ≠ S.routeDirect then some (route, address, .tcp) else none
    | _ => none
  | .openUDP link _ =>
    match s.pc with
    | .forwarding _ packet route =>
      if link ∧ route ≠ S.routeDirect then
        some (route, joinHostPort packet.host (itoa packet.port), .udp)
      else none
    | _ => none
  | _ => none

/-- The request of `openSession` among the actions of a step. -/
def requests (id : Id) (actions : List HandleConn.Action) : List Message :=
  actions.filterMap fun a =>
    match a with
    | .openedSession route address mode => some (.text ⟨id, route, address, mode⟩)
    | _ => none

theorem length_joined_le {host : Bytes} (hh : host.length ≤ 255) {port : Nat} (hp : port < 0x10000) :
    (joinHostPort host (itoa port)).length ≤ 263 := by
  have hport : (itoa port).length ≤ 5 := length_numeral (by decide) (Nat.lt_trans hp (by decide))
  rw [joinHostPort]
  split
  · simp only [List.length_append, List.length_cons]
    omega
  · simp only [List.length_append, List.length_cons]
    omega

section

variable {L : HandleConn.Library} {S : HandleConn.Proxy} {s t : HandleConn.State}

theorem newActions_advance {s' : HandleConn.State} (h : s'.log = s.log) (pc : HandleConn.Pc)
    (actions : List HandleConn.Action) :
    newActions s (HandleConn.advance s' pc actions) = actions := by
  have hlen : (actions ++ s.log).length - s.log.length = actions.length := by
    rw [List.length_append]
    omega
  simp only [newActions, HandleConn.advance, h, hlen, List.take_left]

theorem requests_traffic (id : Id) (u : Bytes) (d : HandleConn.Direction) (path : HandleConn.Path)
    (n : Nat) : requests id (HandleConn.recordTraffic u d path n) = [] := by
  rw [HandleConn.recordTraffic]
  split <;> rfl

theorem sized_served {req : Request} {u : Bytes} {dns : Answers} {routes : Option RouteCache}
    (h : ∀ host, Named S (resolveRoute S.routeDirect dns routes host)) :
    Sized S (HandleConn.served S s req u dns routes).pc := by
  unfold HandleConn.served
  split
  · split
    · trivial
    · exact ⟨h _, nofun⟩
  · trivial

theorem sized_commanded {u : Bytes} {dns : Answers} {routes : Option RouteCache}
    (h : ∀ host, Named S (resolveRoute S.routeDirect dns routes host)) :
    Sized S (HandleConn.commanded S s u dns routes).pc := by
  unfold HandleConn.commanded
  split
  · trivial
  · rename_i req rest hreq
    obtain ⟨hport, hhost⟩ := readSOCKS5Request_bounds hreq
    split
    · exact ⟨h _, fun _ => length_joined_le hhost hport⟩
    · split <;> trivial

theorem sized_detected (inTLS : Bool) : Sized S (HandleConn.detected s inTLS).pc := by
  unfold HandleConn.detected
  split <;> try trivial
  cases inTLS <;> trivial

theorem sized_authenticated (ok : Bool) : Sized S (HandleConn.authenticated S s ok).pc := by
  unfold HandleConn.authenticated
  split
  · trivial
  · split
    · split <;> trivial
    · trivial

/-- The targets of a SOCKS5 client stay bounded, whatever it sends. -/
theorem sized_step {e : HandleConn.Event} (he : Possible S e) (hs : Sized S s.pc)
    (h : HandleConn.step L S s e = some t) : Sized S t.pc := by
  cases HandleConn.step_move h with
  | detect => exact sized_detected false
  | detectInTLS => exact sized_detected true
  | authenticate => exact sized_authenticated _
  | serve => exact sized_served he
  | command => exact sized_commanded he
  | datagram hpc hpacket =>
    obtain ⟨hhost, hpayload⟩ := length_udpPacket hpacket
    exact ⟨he.2 _, length_joined_le hhost (port_lt hpacket), Nat.le_trans hpayload he.1⟩
  | @openUDP ok =>
    cases ok with
    | false => trivial
    | true => exact hs
  | malformed | transfer | dialUDP | sendUDP | answerUDP => exact hs
  | @greet ok | @dial ok | @openSession ok | @waitConnected ok | @onConnected ok | @associate ok =>
    cases ok <;> trivial
  | _ => trivial

theorem requests_advance {id : Id} {s' : HandleConn.State} (h : s'.log = s.log)
    {pc : HandleConn.Pc} {actions : List HandleConn.Action} (ha : requests id actions = []) :
    requests id (newActions s (HandleConn.advance s' pc actions)) = [] := by
  rw [newActions_advance h, ha]

theorem requests_self (id : Id) : requests id (newActions s s) = [] := by
  rw [newActions, Nat.sub_self]
  rfl

/-- The requests of a step are for the session it opens, if it opens one. -/
theorem requests_step {e : HandleConn.Event} (h : HandleConn.step L S s e = some t) (id : Id) :
    requests id (newActions s t) =
      ((opened S s e).map fun o => Message.text ⟨id, o.1, o.2.1, o.2.2⟩).toList := by
  cases HandleConn.step_move h with
  | openSession hpc hroute =>
    rw [newActions_advance rfl]
    simp only [opened, hpc, hroute, ne_eq, not_false_eq_true, and_self, ↓reduceIte]
    rfl
  | noLink hpc =>
    rw [requests_advance rfl rfl]
    simp only [opened, hpc, Bool.false_eq_true, false_and, ↓reduceIte]
    rfl
  | openUDP hpc hroute =>
    rw [newActions_advance rfl]
    simp only [opened, hpc, hroute, ne_eq, not_false_eq_true, and_self, ↓reduceIte]
    rfl
  | noUDPLink hpc =>
    rw [requests_advance rfl rfl]
    simp only [opened, hpc, Bool.false_eq_true, false_and, ↓reduceIte]
    rfl
  | detect | detectInTLS =>
    unfold HandleConn.detected
    split <;> exact requests_advance rfl rfl
  | authenticate =>
    unfold HandleConn.authenticated
    (repeat' split) <;> exact requests_advance rfl rfl
  | serve =>
    unfold HandleConn.served
    (repeat' split) <;> exact requests_advance rfl rfl
  | command =>
    unfold HandleConn.commanded
    (repeat' split) <;> exact requests_advance rfl rfl
  | malformed => exact requests_self id
  | transfer | sendUDP | answerUDP => exact requests_advance rfl (requests_traffic _ _ _ _ _)
  | _ => exact requests_advance rfl rfl

/-- The requests of a client's step carry the route and target it opened a session for. -/
theorem mem_requests {e : HandleConn.Event} (h : HandleConn.step L S s e = some t) {id : Id}
    {m : Message} (hm : m ∈ requests id (newActions s t)) :
    ∃ o, opened S s e = some o ∧ m = .text ⟨id, o.1, o.2.1, o.2.2⟩ := by
  rw [requests_step h] at hm
  obtain ⟨o, ho, he⟩ := Option.map_eq_some_iff.mp (Option.mem_toList.mp hm)
  exact ⟨o, ho, he.symm⟩

end

/-! ## The system -/

/-- Clients, proxies' connections to the broker, and workers. -/
structure System (C P W : Type) where
  client : C → HandleConn.State
  toBroker : P → Fifo Message
  fromWorker : W → Fifo (Frame Id)
  toProxy : P → Fifo (Frame Id)
  /-- links whose reader met a message over its limit -/
  proxyFailed : P → Bool
  workerFailed : W → Bool

def start {C P W : Type} (stream : C → Bytes) : System C P W :=
  ⟨fun c => HandleConn.initial (stream c), fun _ => .empty, fun _ => .empty, fun _ => .empty,
    fun _ => false, fun _ => false⟩

inductive Event (S : HandleConn.Proxy) (C P W : Type) where
  | client (c : C) (e : ClientEvent S) (p : P) (random : Random)
  | read (c : C) (p : P) (id : Id) (chunk : Bytes)
  | sendUDP (c : C) (p : P) (id : Id)
  | closeSession (p : P) (id : Id)
  | target (w : W) (id : Id) (data : Bytes) (n : Nat)
  | targetDatagram (w : W) (id : Id) (data : Bytes)
  | notice (w : W) (id : Id) (connected : Bool)
  | brokerReads (p : P) (failure : Option OpenFailure) (refuse : Bool)
  | brokerForwards (w : W) (owner : Option P)
  | workerGone (p : P) (id : Id)

def pushAll {α : Type} (c : Fifo α) (l : List α) : Fifo α := l.foldl Fifo.push c

/-- What the broker sends back after a message: the error of an open request, or
the end of a session its data could not be passed on for. -/
def answer (failure : Option OpenFailure) (refuse : Bool) : Message → List (Frame Id)
  | .text req =>
    match failure with
    | none => []
    | some e => [⟨req.id, .error, e.text (validUTF8 req.route)⟩]
  | .binary f => if refuse then [⟨f.id, .close, []⟩] else []

/-- The commands `workerReader` passes on. -/
def forwarded : Command → Bool
  | .data => true
  | .udpData => true
  | .connected => true
  | .close => true
  | _ => false

section

variable {C P W : Type} [DecidableEq C] [DecidableEq P] [DecidableEq W]

def step (L : HandleConn.Library) (S : HandleConn.Proxy) (s : System C P W) :
    Event S C P W → Option (System C P W)
  | .client c e p random =>
    match HandleConn.step L S (s.client c) e.event with
    | none => none
    | some t =>
      some { s with
        client := Function.update s.client c t
        toBroker := Function.update s.toBroker p
          (pushAll (s.toBroker p) (requests (newSessionID random) (newActions (s.client c) t))) }
  -- handleBroker
  | .read c p id chunk =>
    match (s.client c).pc with
    | .tunnel _ _ .worker =>
      if chunk.length ≤ maxPacketData then
        some { s with
          toBroker := Function.update s.toBroker p ((s.toBroker p).push (.binary ⟨id, .data, chunk⟩)) }
      else none
    | _ => none
  | .sendUDP c p id =>
    match (s.client c).pc with
    | .forwarding _ packet _ =>
      some { s with
        toBroker := Function.update s.toBroker p
          ((s.toBroker p).push (.binary ⟨id, .udpData, packet.payload⟩)) }
    | _ => none
  | .closeSession p id =>
    some { s with
      toBroker := Function.update s.toBroker p ((s.toBroker p).push (.binary ⟨id, .close, []⟩)) }
  -- remoteReader, with `n` packets sent before the worker stops
  | .target w id data n =>
    if data.length ≤ readBuffer then
      some { s with
        fromWorker := Function.update s.fromWorker w
          (pushAll (s.fromWorker w) (((chunks data).take n).map fun chunk => ⟨id, .data, chunk⟩)) }
    else none
  -- remoteUDPReader
  | .targetDatagram w id data =>
    if data.length ≤ readBuffer then
      some { s with
        fromWorker := Function.update s.fromWorker w ((s.fromWorker w).push ⟨id, .udpData, data⟩) }
    else none
  | .notice w id connected =>
    some { s with
      fromWorker := Function.update s.fromWorker w
        ((s.fromWorker w).push ⟨id, if connected then .connected else .close, []⟩) }
  -- proxyHandler
  | .brokerReads p failure refuse =>
    match (s.toBroker p).pop with
    | none => none
    | some (m, q) =>
      if s.proxyFailed p then none
      else if readLimit < m.bytes.length then
        some { s with
          toBroker := Function.update s.toBroker p q
          proxyFailed := Function.update s.proxyFailed p true }
      else
        some { s with
          toBroker := Function.update s.toBroker p q
          toProxy := Function.update s.toProxy p (pushAll (s.toProxy p) (answer failure refuse m)) }
  -- workerReader
  | .brokerForwards w owner =>
    match (s.fromWorker w).pop with
    | none => none
    | some (f, q) =>
      if s.workerFailed w then none
      else if readLimit < (packet f.id.val f.cmd f.payload).length then
        some { s with
          fromWorker := Function.update s.fromWorker w q
          workerFailed := Function.update s.workerFailed w true }
      else
        match owner with
        | none => some { s with fromWorker := Function.update s.fromWorker w q }
        | some p =>
          some { s with
            fromWorker := Function.update s.fromWorker w q
            toProxy := Function.update s.toProxy p
              (if forwarded f.cmd then (s.toProxy p).push f else s.toProxy p) }
  -- removeWorker
  | .workerGone p id =>
    some { s with toProxy := Function.update s.toProxy p ((s.toProxy p).push ⟨id, .close, []⟩) }

end

/-! ## What fits -/

/-- All that was ever sent on a channel. -/
def All {α : Type} (q : α → Prop) (c : Fifo α) : Prop := ∀ a ∈ c.sent, q a

section

variable {α ι : Type} {q : α → Prop} {c d : Fifo α}

theorem all_empty : All q (.empty : Fifo α) := fun _ h => absurd h List.not_mem_nil

theorem All.push (h : All q c) {a : α} (ha : q a) : All q (c.push a) := by
  intro b hb
  rcases List.mem_append.mp hb with hb | hb
  · exact h b hb
  · rw [List.mem_singleton.mp hb]
    exact ha

theorem All.pushAll (h : All q c) {l : List α} (hl : ∀ a ∈ l, q a) : All q (pushAll c l) := by
  induction l generalizing c with
  | nil => exact h
  | cons a l ih =>
    exact ih (h.push (hl a List.mem_cons_self)) fun b hb => hl b (List.mem_cons_of_mem a hb)

theorem pushAll_sent (c : Fifo α) (l : List α) : (pushAll c l).sent = c.sent ++ l := by
  induction l generalizing c with
  | nil => exact (List.append_nil _).symm
  | cons a l ih =>
    have h := ih (c.push a)
    rw [Fifo.push_sent, List.append_assoc, List.singleton_append] at h
    exact h

theorem All.pop (h : All q c) {a : α} (hp : c.pop = some (a, d)) : q a ∧ All q d := by
  obtain ⟨hs, ht, -⟩ := Fifo.pop_some hp
  refine ⟨h a ?_, fun b hb => h b (hs ▸ hb)⟩
  rw [← hs]
  refine Fifo.taken_subset ?_
  rw [ht]
  exact List.mem_append_right _ (List.mem_singleton_self a)

theorem all_update [DecidableEq ι] {f : ι → Fifo α} (h : ∀ i, All q (f i)) {i : ι} (hc : All q c) :
    ∀ j, All q (Function.update f i c j) := by
  intro j
  by_cases hj : j = i
  · subst hj
    rw [Function.update_self]
    exact hc
  · rw [Function.update_of_ne hj]
    exact h j

end

/-- Every message enqueued so far is within the limit of its receiver. -/
structure Fits {C P W : Type} (s : System C P W) : Prop where
  toBroker : ∀ p, All (fun m => m.bytes.length ≤ readLimit) (s.toBroker p)
  fromWorker : ∀ w, All (fun f => (packet f.id.val f.cmd f.payload).length ≤ readLimit)
    (s.fromWorker w)
  toProxy : ∀ p, All (fun f => (packet f.id.val f.cmd f.payload).length ≤ readLimit) (s.toProxy p)

/-- Clients, and the routes of the requests, are bounded whatever is sent. -/
structure Bounded {C P W : Type} (S : HandleConn.Proxy) (s : System C P W) : Prop where
  clients : ∀ c, Sized S (s.client c).pc
  routes : ∀ p, All (fun m => ∀ req, m = .text req → (decode req.route).length ≤ 255) (s.toBroker p)

/-- The CONNECT target that an HTTP client has a session opened for is short enough. -/
def Admits {C P W : Type} (S : HandleConn.Proxy) (s : System C P W) : Event S C P W → Prop
  | .client c e _ _ => ∀ u address route ok, (s.client c).pc = .connecting .http u address route →
      e.event = .openSession true ok → route ≠ S.routeDirect →
      escapedLength route + escapedLength address + 81 ≤ readLimit
  | _ => True

theorem bounded_start {C P W : Type} (S : HandleConn.Proxy) (stream : C → Bytes) :
    Bounded S (start stream : System C P W) :=
  ⟨fun _ => trivial, fun _ => all_empty⟩

theorem fits_start {C P W : Type} (stream : C → Bytes) : Fits (start stream : System C P W) :=
  ⟨fun _ => all_empty, fun _ => all_empty, fun _ => all_empty⟩

/-- Only an HTTP client has a session opened for a target of any length. -/
theorem opened_bounds {S : HandleConn.Proxy} {s : HandleConn.State} {e : HandleConn.Event}
    {o : Route × Bytes × Mode} (hs : Sized S s.pc) (h : opened S s e = some o) :
    (decode o.1).length ≤ 255 ∧ (o.2.1.length ≤ 263 ∨
      ∃ u ok, s.pc = .connecting .http u o.2.1 o.1 ∧ e = .openSession true ok ∧
        o.1 ≠ S.routeDirect) := by
  cases e with
  | openSession link ok =>
    simp only [opened] at h
    split at h
    · rename_i handler u address route hpc
      rw [hpc] at hs
      obtain ⟨hroute, haddr⟩ := hs
      split at h
      · rename_i hc
        obtain ⟨rfl, hne⟩ := hc
        cases h
        refine ⟨hroute.resolve_left hne, ?_⟩
        cases handler with
        | http => exact Or.inr ⟨u, ok, hpc, rfl, hne⟩
        | socks5 => exact Or.inl (haddr rfl)
      · cases h
    · cases h
  | openUDP link ok =>
    simp only [opened] at h
    split at h
    · rename_i u packet route hpc
      rw [hpc] at hs
      obtain ⟨hroute, haddr, -⟩ := hs
      split at h
      · rename_i hc
        cases h
        exact ⟨hroute.resolve_left hc.2, Or.inl haddr⟩
      · cases h
    · cases h
  | _ => cases h

theorem answer_fits {failure : Option OpenFailure} {refuse : Bool} {m : Message}
    (h : ∀ req, m = .text req → (decode req.route).length ≤ 255) :
    ∀ f ∈ answer failure refuse m, (packet f.id.val f.cmd f.payload).length ≤ readLimit := by
  have hlimit : 2000 ≤ readLimit := Nat.le_of_ble_eq_true rfl
  intro f hf
  cases m with
  | text req =>
    cases failure with
    | none => exact absurd hf List.not_mem_nil
    | some e =>
      rw [answer, List.mem_singleton] at hf
      have hroute := h req rfl
      have hvalid := length_validUTF8_le req.route
      have htext := length_failure_le (validUTF8 req.route) e
      rw [hf, length_packet]
      simp only
      omega
  | binary g =>
    rw [answer] at hf
    split at hf
    · rw [List.mem_singleton.mp hf, length_packet]
      simp only [List.length_nil]
      omega
    · exact absurd hf List.not_mem_nil

section

variable {C P W : Type} [DecidableEq C] [DecidableEq P] [DecidableEq W]
variable {L : HandleConn.Library} {S : HandleConn.Proxy} {s t : System C P W}

theorem bounded_step {e : Event S C P W} (hs : Bounded S s) (h : step L S s e = some t) :
    Bounded S t := by
  obtain ⟨hclients, hroutes⟩ := hs
  have hbinary : ∀ f req, Message.binary f = .text req → (decode req.route).length ≤ 255 := nofun
  cases e with
  | client c e p random =>
    simp only [step] at h
    split at h
    · cases h
    · rename_i x hx
      cases h
      refine ⟨fun d => ?_, all_update hroutes ((hroutes p).pushAll fun m hm => ?_)⟩
      · by_cases hd : d = c
        · subst hd
          simp only [Function.update_self]
          exact sized_step e.possible (hclients d) hx
        · simp only [Function.update_of_ne hd]
          exact hclients d
      · obtain ⟨o, ho, rfl⟩ := mem_requests hx hm
        intro req hreq
        cases hreq
        exact (opened_bounds (hclients c) ho).1
  | read c p id chunk =>
    simp only [step] at h
    split at h
    · split at h <;> cases h
      exact ⟨hclients, all_update hroutes ((hroutes p).push (hbinary _))⟩
    · cases h
  | sendUDP c p id =>
    simp only [step] at h
    split at h <;> cases h
    exact ⟨hclients, all_update hroutes ((hroutes p).push (hbinary _))⟩
  | closeSession p id =>
    cases h
    exact ⟨hclients, all_update hroutes ((hroutes p).push (hbinary _))⟩
  | target w id data n =>
    simp only [step] at h
    split at h <;> cases h
    exact ⟨hclients, hroutes⟩
  | targetDatagram w id data =>
    simp only [step] at h
    split at h <;> cases h
    exact ⟨hclients, hroutes⟩
  | notice w id connected =>
    cases h
    exact ⟨hclients, hroutes⟩
  | brokerReads p failure refuse =>
    simp only [step] at h
    split at h
    · cases h
    · rename_i m q hpop
      have hq := ((hroutes p).pop hpop).2
      split at h
      · cases h
      · split at h <;> cases h
        · exact ⟨hclients, all_update hroutes hq⟩
        · exact ⟨hclients, all_update hroutes hq⟩
  | brokerForwards w owner =>
    simp only [step] at h
    repeat' split at h
    all_goals cases h
    all_goals exact ⟨hclients, hroutes⟩
  | workerGone p id =>
    cases h
    exact ⟨hclients, hroutes⟩

/-- Every message but the request for a CONNECT target fits whatever is sent. -/
theorem fits_step {e : Event S C P W} (hb : Bounded S s) (hs : Fits s) (he : Admits S s e)
    (h : step L S s e = some t) : Fits t := by
  obtain ⟨hto, hfrom, hproxy⟩ := hs
  have hempty : ∀ (id : Id) (cmd : Command), (packet id.val cmd []).length ≤ readLimit :=
    fun id cmd => packet_fits (Nat.zero_le _)
  cases e with
  | client c e p random =>
    simp only [step] at h
    split at h
    · cases h
    · rename_i x hx
      cases h
      refine ⟨all_update hto ((hto p).pushAll fun m hm => ?_), hfrom, hproxy⟩
      obtain ⟨o, ho, rfl⟩ := mem_requests hx hm
      obtain ⟨hroute, haddr⟩ := opened_bounds (hb.clients c) ho
      simp only [Message.bytes]
      rw [length_marshal]
      rcases haddr with haddr | ⟨u, ok, hpc, hev, hne⟩
      · have h₁ := escapedLength_le o.1
        have h₂ := escapedLength_le_length o.2.1
        have hlimit : 6 * 255 + 6 * 263 + 81 ≤ readLimit := Nat.le_of_ble_eq_true rfl
        omega
      · exact he u o.2.1 o.1 ok hpc hev hne
  | read c p id chunk =>
    simp only [step] at h
    split at h
    · split at h <;> cases h
      rename_i hchunk
      refine ⟨all_update hto ((hto p).push (packet_fits ?_)), hfrom, hproxy⟩
      exact Nat.le_trans hchunk (Nat.le_of_ble_eq_true rfl)
    · cases h
  | sendUDP c p id =>
    simp only [step] at h
    split at h <;> cases h
    rename_i u packet route hpc
    have hsized := hb.clients c
    rw [hpc] at hsized
    exact ⟨all_update hto ((hto p).push (packet_fits hsized.2.2)), hfrom, hproxy⟩
  | closeSession p id =>
    cases h
    exact ⟨all_update hto ((hto p).push (hempty id .close)), hfrom, hproxy⟩
  | target w id data n =>
    simp only [step] at h
    split at h <;> cases h
    refine ⟨hto, all_update hfrom ((hfrom w).pushAll fun f hf => ?_), hproxy⟩
    obtain ⟨chunk, hc, rfl⟩ := List.mem_map.mp hf
    have hlen := length_chunk (List.mem_of_mem_take hc)
    exact packet_fits (Nat.le_trans hlen (Nat.le_of_ble_eq_true rfl))
  | targetDatagram w id data =>
    simp only [step] at h
    split at h <;> cases h
    rename_i hdata
    exact ⟨hto, all_update hfrom ((hfrom w).push (packet_fits hdata)), hproxy⟩
  | notice w id connected =>
    cases h
    exact ⟨hto, all_update hfrom ((hfrom w).push (hempty id _)), hproxy⟩
  | brokerReads p failure refuse =>
    simp only [step] at h
    split at h
    · cases h
    · rename_i m q hpop
      have hq := ((hto p).pop hpop).2
      have hanswer := @answer_fits failure refuse m ((hb.routes p).pop hpop).1
      split at h
      · cases h
      · split at h <;> cases h
        · exact ⟨all_update hto hq, hfrom, hproxy⟩
        · exact ⟨all_update hto hq, hfrom, all_update hproxy ((hproxy p).pushAll hanswer)⟩
  | brokerForwards w owner =>
    simp only [step] at h
    split at h
    · cases h
    · rename_i f q hpop
      obtain ⟨hf, hq⟩ := (hfrom w).pop hpop
      split at h
      · cases h
      · split at h
        · cases h
          exact ⟨hto, all_update hfrom hq, hproxy⟩
        · split at h <;> cases h
          · exact ⟨hto, all_update hfrom hq, hproxy⟩
          · rename_i p
            refine ⟨hto, all_update hfrom hq, all_update hproxy ?_⟩
            split
            · exact (hproxy p).push hf
            · exact hproxy p
  | workerGone p id =>
    cases h
    exact ⟨hto, hfrom, all_update hproxy ((hproxy p).push (hempty id .close))⟩

/-- Opening a session for a target that is too long enqueues a message that is. -/
theorem not_fits_step {e : Event S C P W} (h : ¬Admits S s e) :
    ∃ t, step L S s e = some t ∧ ¬Fits t := by
  cases e with
  | client c e p random =>
    simp only [Admits, not_forall, Nat.not_le] at h
    obtain ⟨u, address, route, ok, hpc, he, hne, hlong⟩ := h
    have hstep : ∃ x, HandleConn.step L S (s.client c) e.event = some x := by
      rw [he]
      simp only [HandleConn.step, hpc, hne, ↓reduceIte, Option.some.injEq, exists_eq']
    obtain ⟨x, hx⟩ := hstep
    have hopened : opened S (s.client c) e.event = some (route, address, .tcp) := by
      rw [he]
      simp only [opened, hpc, ne_eq, hne, not_false_eq_true, and_self, ↓reduceIte]
    have hreq : Message.text ⟨newSessionID random, route, address, .tcp⟩ ∈
        requests (newSessionID random) (newActions (s.client c) x) := by
      rw [requests_step hx, hopened]
      exact List.mem_singleton_self _
    refine ⟨_, by simp only [step, hx]; rfl, fun hf => ?_⟩
    have hle := hf.toBroker p (.text ⟨newSessionID random, route, address, .tcp⟩) (by
      simp only [Function.update_self, pushAll_sent]
      exact List.mem_append_right _ hreq)
    simp only [Message.bytes, length_marshal] at hle
    omega
  | _ => exact absurd trivial h

/-- In the runs of any number of clients, proxies and workers, all messages are
within the read limits as long as every session opened for an HTTP client is for
a route and target that escape to few enough bytes, and only as long. -/
theorem fits_iff_admits (L : HandleConn.Library) (S : HandleConn.Proxy) (stream : C → Bytes)
    (es : List (Event S C P W)) :
    Always (step L S) Fits (start stream) es ↔ Meets (step L S) (Admits S) (start stream) es :=
  always_iff_meets (fun _ _ _ hb h => bounded_step hb h)
    (fun _ _ _ hb hf he h => fits_step hb hf he h) (fun _ _ _ _ he => not_fits_step he)
    (bounded_start S stream) (fits_start stream)

/-- A client goes its way whatever the others do. -/
theorem run_client {s : System C P W} {c : C} (p : P) (random : Random) {es : List (ClientEvent S)}
    {x : HandleConn.State}
    (h : run (HandleConn.step L S) (s.client c) (es.map ClientEvent.event) = some x) :
    ∃ t, run (step L S) s (es.map fun e => .client c e p random) = some t ∧ t.client c = x := by
  induction es generalizing s with
  | nil =>
    cases h
    exact ⟨s, rfl, rfl⟩
  | cons e es ih =>
    obtain ⟨y, hy, hr⟩ := run_cons_some h
    have hstep : ∃ m, step L S s (.client c e p random) = some m ∧ m.client c = y := by
      refine ⟨_, by simp only [step, hy]; rfl, ?_⟩
      simp only [Function.update_self]
    obtain ⟨m, hm, hc⟩ := hstep
    rw [← hc] at hr
    obtain ⟨t, ht, hx⟩ := ih hr
    refine ⟨t, ?_, hx⟩
    rw [List.map_cons, run_cons, hm]
    exact ht

end

/-! ## A long target -/

/-- The stream of a client that connects to a host of `n` letters. -/
def longStream (n : Nat) : Bytes :=
  ascii "CONNECT " ++ (List.replicate n 0x61 ++
    ascii ":80 HTTP/1.1\r\nProxy-Authorization: Basic dTpw\r\n\r\n")

def longRequest (n : Nat) : Request :=
  ⟨methodConnect, List.replicate n 0x61 ++ colon :: ascii "80", [], [ascii "Basic dTpw"]⟩

/-- The library, as far as this stream asks it. -/
def longLibrary (n : Nat) : HandleConn.Library :=
  ⟨fun s => if s = longStream n then some (longRequest n, []) else none, fun _ => none⟩

/-- A proxy that knows the user of the stream. -/
def oneUser : HandleConn.Proxy :=
  ⟨ascii "direct", none, fun u p => u = ascii "u" ∧ p = ascii "p"⟩

/-- Routes that lead every name to the workers of `w`. -/
def allToWorkers : RouteCache := ⟨fun _ => some (ascii "w"), newDomainTrie, .empty, ascii "w"⟩

theorem named_allToWorkers (dns : Answers) (host : Bytes) :
    Named oneUser (resolveRoute oneUser.routeDirect dns (some allToWorkers) host) := by
  simp only [resolveRoute]
  split
  · exact Or.inl rfl
  · right
    simp only [routeFor, allToWorkers]
    decide

/-- The steps of the client up to the point where the session is opened. -/
def longRun : List (ClientEvent oneUser) :=
  [⟨.detect, trivial⟩, ⟨.readRequest, trivial⟩, ⟨.checkAuthUser, trivial⟩,
    ⟨.serve (fun _ => none) (some allToWorkers), fun host => named_allToWorkers _ host⟩]

theorem portText_letters (n : Nat) : ∀ b ∈ List.replicate n (0x61 : UInt8), IsNameByte b := by
  intro b hb
  rw [List.eq_of_mem_replicate hb]
  decide

/-- The CONNECT target is what the client wrote, and the route is to the workers. -/
theorem run_longRun {n : Nat} (hn : 0 < n) :
    ∃ x, run (HandleConn.step (longLibrary n) oneUser) (HandleConn.initial (longStream n))
        (longRun.map ClientEvent.event) = some x ∧
      x.pc = .connecting .http (ascii "u") (List.replicate n 0x61 ++ colon :: ascii "80")
        (ascii "w") := by
  have hne : List.replicate n (0x61 : UInt8) ≠ [] := by
    rw [Ne, List.replicate_eq_nil_iff]
    omega
  have hletters := portText_letters n
  have htext : PortText (List.replicate n 0x61) := portText_of_port hletters
  have hport : PortText (ascii "80") := by
    have h : ∀ b ∈ ascii "80", b ≠ colon ∧ b ≠ openBracket ∧ b ≠ closeBracket := by decide +kernel
    exact h
  have hdetect : HandleConn.detectProtocol (longStream n) = some .http := rfl
  have hread : (longLibrary n).readRequest (longStream n) = some (longRequest n, []) := if_pos rfl
  have hauth : basicCredentials [ascii "Basic dTpw"] = some (ascii "u", ascii "p") := by decide
  have hcheck : oneUser.checkCredentials (ascii "u") (ascii "p") = true := by decide
  have hsplit : splitHostPort (List.replicate n 0x61 ++ colon :: ascii "80") =
      some (List.replicate n 0x61, ascii "80") := splitHostPort_plain hport htext
  have hatoi : atoi (ascii "80") = some 80 := by decide
  have htarget : parseConnectTarget (longRequest n) = some (List.replicate n 0x61, ascii "80") := by
    have happend : List.replicate n (0x61 : UInt8) ++ colon :: ascii "80" ≠ [] := by simp
    simp only [parseConnectTarget, longRequest, happend, ↓reduceIte, hsplit, hne, hatoi]
    rfl
  have hjoin : joinHostPort (List.replicate n 0x61) (ascii "80") =
      List.replicate n 0x61 ++ colon :: ascii "80" := if_neg htext.colon
  have hlast : (List.replicate n (0x61 : UInt8)).getLast? ≠ some dot := by
    intro h
    exact absurd (List.eq_of_mem_replicate (List.mem_of_getLast? h)) (by decide)
  have hroute : resolveRoute oneUser.routeDirect (fun _ => none) (some allToWorkers)
      (List.replicate n 0x61) = ascii "w" := by
    rw [resolveRoute_plain hne htext.colon hletters hlast (spelling_self _)]
    rfl
  refine ⟨⟨.connecting .http (ascii "u") (List.replicate n 0x61 ++ colon :: ascii "80") (ascii "w"), [],
    [.tracked (ascii "u"), .checked (ascii "u") (ascii "p") true]⟩, ?_, rfl⟩
  simp only [longRun, List.map_cons, List.map_nil, run_cons, run_nil, HandleConn.step,
    HandleConn.initial, HandleConn.detected, hdetect, HandleConn.advance, List.nil_append,
    Option.bind_some, ↓reduceIte, hread, longRequest, hauth, hcheck, List.cons_append]
  rw [HandleConn.served, if_pos rfl]
  have h := htarget
  rw [longRequest] at h
  simp only [h, hjoin, hroute, HandleConn.advance, List.nil_append]

/-- The request for a host of 131072 letters is over the limit. -/
theorem long_target_does_not_fit :
    ¬∀ (L : HandleConn.Library) (S : HandleConn.Proxy) (stream : Unit → Bytes)
      (es : List (Event S Unit Unit Unit)), Always (step L S) Fits (start stream) es := by
  intro h
  obtain ⟨n, hn, hlimit⟩ : ∃ n, 0 < n ∧ readLimit ≤ n :=
    ⟨readLimit, Nat.le_of_ble_eq_true rfl, Nat.le_refl _⟩
  obtain ⟨x, hx, hpc⟩ := run_longRun hn
  let random : Random := ⟨List.replicate 16 0, rfl⟩
  obtain ⟨s, hs, hc⟩ := @run_client Unit Unit Unit _ _ _ (longLibrary n) oneUser
    (start fun _ => longStream n) () () random longRun x hx
  have hsafe : ∀ b ∈ List.replicate n (0x61 : UInt8) ++ colon :: ascii "80",
      htmlSafe b = true := by
    intro b hb
    rcases List.mem_append.mp hb with hb | hb
    · rw [List.eq_of_mem_replicate hb]
      decide
    · have h80 : ∀ b ∈ colon :: ascii "80", htmlSafe b = true := by decide +kernel
      exact h80 b hb
  have hnot : ¬Admits oneUser s (.client () ⟨.openSession true true, trivial⟩ () random) := by
    intro ha
    have hle := ha (ascii "u") _ (ascii "w") true (by rw [hc, hpc]) rfl (by decide)
    rw [escapedLength_safe hsafe, List.length_append, List.length_replicate] at hle
    omega
  obtain ⟨t, ht, hfit⟩ := @not_fits_step Unit Unit Unit _ _ _ (longLibrary n) oneUser s _ hnot
  have hlast : run (step (longLibrary n) oneUser) s
      [.client () ⟨.openSession true true, trivial⟩ () random] = some t := by
    rw [run_cons, ht]
    rfl
  exact hfit (h (longLibrary n) oneUser (fun _ => longStream n) _ _ [] t
    (List.append_nil _).symm (run_join hs hlast))

end SplitProxy.MessageSize
