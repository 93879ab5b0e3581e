import SplitProxy.DirectUDP

/-!
# The client of a UDP association

The relay loop binds the association to the source of its first well-formed
datagram, whoever sent it, and from then on serves that source alone. The
direct path is the machine of `DirectUDP`; the broker path and the reading
goroutines that answer the client are added here.
-/
namespace SplitProxy.ClientBinding

open GoText NetIP HTTPConnect Routing Socks5 Runs

/-- `net.UDPAddr`; its `IP` has four or sixteen bytes and no zone of its own. -/
structure UDPAddr where
  ip : Addr
  port : Nat
  zone : Bytes
  plain : ip.isValid = true ∧ ip.withoutZone = ip
  deriving DecidableEq

/-- `net.IP.Equal`: an IPv4 address is equal to its mapped form. -/
def ipEqual (a b : Addr) : Bool := a.unmap = b.unmap

/-- The comparison in `bindClientUDPAddr`. -/
def sameClient (a b : UDPAddr) : Bool :=
  ipEqual a.ip b.ip && a.port = b.port && a.zone = b.zone

/-- The bound address after the call, and its result. -/
def bindClientUDPAddr (client : Option UDPAddr) (addr : UDPAddr) : Option UDPAddr × Bool :=
  match client with
  | none => (some addr, true)
  | some a => (some a, sameClient a addr)

/-! ## Replies -/

def portField (port : Nat) : Bytes := [UInt8.ofNat (port / 0x100), UInt8.ofNat port]

/-- ATYP and address of `ip.To4()`, or else of `ip.To16()`. -/
def addressField (ip : Addr) : Bytes :=
  match ip.unmap with
  | .v4 b => 0x01 :: bytesOf 4 b
  | .v6 b _ => 0x04 :: bytesOf 16 b
  | .invalid => []

def buildSOCKS5UDPResponse (addr : UDPAddr) (payload : Bytes) : Bytes :=
  [0x00, 0x00, 0x00] ++ addressField addr.ip ++ portField addr.port ++ payload

/-- `net.ParseIP`, which takes no zone. -/
def parseIP (s : Bytes) : Option Addr := (parseAddr s).filter fun a => a.withoutZone = a

/-- The empty result stands for `nil`. -/
def buildSOCKS5UDPResponseFromTarget (target payload : Bytes) : Bytes :=
  match splitHostPort target with
  | none => []
  | some (host, portString) =>
    match atoi portString with
    | none => []
    | some port =>
      if port < 0 ∨ 65535 < port then []
      else
        match parseIP host with
        | some ip => [0x00, 0x00, 0x00] ++ addressField ip ++ portField port.toNat ++ payload
        | none =>
          if 255 < host.length then []
          else
            [0x00, 0x00, 0x00, 0x03, UInt8.ofNat host.length] ++ host ++ portField port.toNat ++
              payload

/-! ## The association -/

structure BrokerSession where
  key : Bytes
  target : Bytes
  closed : Bool
  deriving DecidableEq

/-- Where the relay loop stands once a datagram of `src` has passed the binding. -/
inductive LoopPc where
  | reading
  | direct (src : UDPAddr) (payload : Bytes)
  | picking (src : UDPAddr) (packet : SOCKS5UDPPacket) (route : Route)
  | opening (src : UDPAddr) (packet : SOCKS5UDPPacket) (route : Route)
  | sending (src : UDPAddr) (packet : SOCKS5UDPPacket) (id : Nat)
  | stopped

/-- The reading goroutine of a direct or a broker session. -/
inductive Reader where
  | direct (id : Nat)
  | broker (id : Nat)
  deriving DecidableEq

structure State where
  loop : LoopPc
  clientUDPAddr : Option UDPAddr
  relay : Direct.Association
  broker : List BrokerSession
  brokerSessions : Bytes → Option Nat
  /-- a response and the destination `getClientUDPAddr` gave for it -/
  pending : Reader → Option (UDPAddr × Bytes)
  /-- every payload sent to a target, with the source of its datagram -/
  forwarded : List (UDPAddr × Bytes)
  /-- every datagram written to the relay socket, with its destination -/
  replies : List (UDPAddr × Bytes)

def start : State where
  loop := .reading
  clientUDPAddr := none
  relay := Direct.start
  broker := []
  brokerSessions := fun _ => none
  pending := fun _ => none
  forwarded := []
  replies := []

inductive Event where
  | datagram (src : UDPAddr) (d : Direct.Datagram)
  | stop
  | direct (e : Direct.Event)
  | pickBroker
  | dialBroker (ok : Bool)
  | sendBroker (ok : Bool)
  | brokerCloses (id : Nat)
  | brokerForgets (id : Nat)
  | received (r : Reader) (src : UDPAddr) (payload : Bytes)
  | written (r : Reader) (ok : Bool)

def udpTarget (packet : SOCKS5UDPPacket) : Bytes := joinHostPort packet.host (itoa packet.port)

def getSessionKey (route : Route) (target : Bytes) : Bytes := route ++ 0x7C :: target

/-- The broker session under a key that is not closed. -/
def live (s : State) (key : Bytes) : Option Nat :=
  (s.brokerSessions key).filter fun id => (s.broker[id]?).any fun x => !x.closed

def closeBroker (sessions : List BrokerSession) (id : Nat) : List BrokerSession :=
  sessions.modify id fun x => { x with closed := true }

/-- What the reader of a session makes of a payload. -/
def response (s : State) (src : UDPAddr) (payload : Bytes) : Reader → Option Bytes
  | .direct id =>
    if id < s.relay.sessions.length then some (buildSOCKS5UDPResponse src payload) else none
  | .broker id =>
    (s.broker[id]?).map fun x => buildSOCKS5UDPResponseFromTarget x.target payload

/-- The relay loop after a step of its direct part. -/
def afterDirect (s : State) (src : UDPAddr) (payload : Bytes) (r : Direct.Association) : State :=
  { s with
    relay := r
    loop := match r.pc with
      | .reading => .reading
      | _ => .direct src payload
    forwarded :=
      if r.sent.length = s.relay.sent.length then s.forwarded else (src, payload) :: s.forwarded }

/-- The event belongs to a reading goroutine and not to the loop. -/
def ofReader : Direct.Event → Bool
  | .readerCloses _ | .readerForgets _ => true
  | _ => false

def step (routeDirect : Route) (s : State) : Event → Option State
  | .datagram src d =>
    match s.loop with
    | .reading =>
      match parseSOCKS5UDPRequest d.data with
      | none => some s
      | some packet =>
        let bound := bindClientUDPAddr s.clientUDPAddr src
        let s := { s with clientUDPAddr := bound.1 }
        if bound.2 then
          let route := resolveRoute routeDirect d.answers d.routes packet.host
          if route = routeDirect then
            (Direct.step routeDirect s.relay (.datagram d)).map (afterDirect s src packet.payload)
          else some { s with loop := .picking src packet route }
        else some s
    | _ => none
  | .stop =>
    -- the control connection is gone, or the relay socket cannot be read
    match s.loop with
    | .reading => some { s with loop := .stopped }
    | _ => none
  | .direct e =>
    if ofReader e then
      (Direct.step routeDirect s.relay e).map fun r => { s with relay := r }
    else
      match s.loop with
      | .direct src payload =>
        (Direct.step routeDirect s.relay e).map (afterDirect s src payload)
      | _ => none
  | .pickBroker =>
    match s.loop with
    | .picking src packet route =>
      let key := getSessionKey route (udpTarget packet)
      match live s key with
      | some id => some { s with loop := .sending src packet id }
      | none =>
        some { s with
          loop := .opening src packet route
          brokerSessions := Function.update s.brokerSessions key none }
    | _ => none
  | .dialBroker ok =>
    match s.loop with
    | .opening src packet route =>
      let key := getSessionKey route (udpTarget packet)
      if ok then
        match live s key with
        | some id => some { s with loop := .sending src packet id }
        | none =>
          some { s with
            loop := .sending src packet s.broker.length
            broker := s.broker ++ [⟨key, udpTarget packet, false⟩]
            brokerSessions := Function.update s.brokerSessions key (some s.broker.length) }
      else some { s with loop := .reading }
    | _ => none
  | .sendBroker ok =>
    match s.loop with
    | .sending src packet id =>
      match s.broker[id]? with
      | none => none
      | some x =>
        if x.closed then some { s with loop := .reading }
        else if ok then
          some { s with loop := .reading, forwarded := (src, packet.payload) :: s.forwarded }
        else
          some { s with
            loop := .reading
            broker := closeBroker s.broker id
            brokerSessions := Direct.forget s.brokerSessions x.key id }
    | _ => none
  | .brokerCloses id =>
    if id < s.broker.length then some { s with broker := closeBroker s.broker id } else none
  | .brokerForgets id =>
    match s.broker[id]? with
    | none => none
    | some x =>
      if x.closed then
        some { s with brokerSessions := Direct.forget s.brokerSessions x.key id }
      else none
  | .received r src payload =>
    match s.pending r, response s src payload r with
    | none, some reply =>
      match s.clientUDPAddr with
      | none => some s
      | some dst =>
        if payload = [] ∨ reply = [] then some s
        else some { s with pending := Function.update s.pending r (some (dst, reply)) }
    | _, _ => none
  | .written r ok =>
    match s.pending r with
    | none => none
    | some d =>
      some { s with
        pending := Function.update s.pending r none
        replies := if ok then d :: s.replies else s.replies }

/-! ## One client -/

/-- The source of the datagram the loop is working on. -/
def LoopPc.source : LoopPc → Option UDPAddr
  | .reading => none
  | .direct src _ => some src
  | .picking src _ _ => some src
  | .opening src _ _ => some src
  | .sending src _ _ => some src
  | .stopped => none

/-- The association is bound to this source. -/
def BoundTo (s : State) (src : UDPAddr) : Prop :=
  ∃ a, s.clientUDPAddr = some a ∧ sameClient a src = true

/-- Everything goes out on behalf of the bound address, and that is an address of `peer`. -/
structure OnBehalf (peer : Addr) (s : State) : Prop where
  peer : ∀ a, s.clientUDPAddr = some a → ipEqual a.ip peer = true
  forwarded : ∀ f ∈ s.forwarded, BoundTo s f.1
  replies : ∀ d ∈ s.replies, s.clientUDPAddr = some d.1

/-- The step does not change the bound address once there is one. -/
def KeepsBinding (routeDirect : Route) (s : State) (e : Event) : Prop :=
  ∀ t a, step routeDirect s e = some t → s.clientUDPAddr = some a → t.clientUDPAddr = some a

/-- A well-formed datagram that finds no address bound comes from `peer`. -/
def BindsPeer (peer : Addr) (s : State) : Event → Prop
  | .datagram src d => s.loop = .reading → s.clientUDPAddr = none →
      (parseSOCKS5UDPRequest d.data).isSome = true → ipEqual src.ip peer = true
  | _ => True

variable {routeDirect : Route} {peer : Addr} {s t : State} {e : Event} {src : UDPAddr}

@[simp] theorem sameClient_self (a : UDPAddr) : sameClient a a = true := by
  simp [sameClient, ipEqual]

/-- What holds of every association. -/
structure Inv (s : State) : Prop where
  idle : (∀ src payload, s.loop ≠ .direct src payload) → s.relay.pc = .reading
  source : ∀ src, s.loop.source = some src → BoundTo s src
  pending : ∀ r d, s.pending r = some d → s.clientUDPAddr = some d.1
  forwarded : ∀ f ∈ s.forwarded, BoundTo s f.1
  replies : ∀ d ∈ s.replies, s.clientUDPAddr = some d.1

theorem inv_start : Inv start := by
  refine ⟨fun _ => rfl, fun src h => ?_, fun r d h => ?_, fun f h => ?_, fun d h => ?_⟩
  all_goals cases h

/-- The loop ends its work on a datagram, or passes it on under the same source. -/
theorem Inv.loop {pc : LoopPc} {broker : List BrokerSession} {sessions : Bytes → Option Nat}
    (hs : Inv s) (hd : ∀ src payload, s.loop ≠ .direct src payload)
    (hsrc : ∀ src, pc.source = some src → BoundTo s src) :
    Inv { s with loop := pc, broker := broker, brokerSessions := sessions } :=
  ⟨fun _ => hs.idle hd, hsrc, hs.pending, hs.forwarded, hs.replies⟩

theorem inv_afterDirect {payload : Bytes} {r : Direct.Association} (hs : Inv s)
    (hsrc : BoundTo s src) : Inv (afterDirect s src payload r) := by
  refine ⟨fun h => ?_, fun x hx => ?_, hs.pending, fun f hf => ?_, hs.replies⟩
  · cases hpc : r.pc with
    | reading => exact hpc
    | _ =>
      simp only [afterDirect, hpc] at h
      exact absurd rfl (h src payload)
  · cases hpc : r.pc with
    | reading =>
      simp only [afterDirect, hpc] at hx
      cases hx
    | _ =>
      simp only [afterDirect, hpc] at hx
      cases hx
      exact hsrc
  · simp only [afterDirect] at hf
    split at hf
    · exact hs.forwarded f hf
    · rcases List.mem_cons.mp hf with rfl | hf
      · exact hsrc
      · exact hs.forwarded f hf

/-- The reading goroutines do not move the relay loop. -/
theorem pc_of_reader {f : Direct.Event} {a b : Direct.Association} (hf : ofReader f = true)
    (h : Direct.step routeDirect a f = some b) : b.pc = a.pc := by
  cases f with
  | readerCloses id =>
    simp only [Direct.step] at h
    split at h <;> cases h
    rfl
  | readerForgets id =>
    simp only [Direct.step] at h
    split at h
    · cases h
    · split at h <;> cases h
      rfl
  | _ => cases hf

/-- Binding changes nothing but an address that was not there. -/
theorem inv_bind {a : UDPAddr} (hs : Inv s) (h : s.loop = .reading)
    (ha : ∀ b, s.clientUDPAddr = some b → b = a) : Inv { s with clientUDPAddr := some a } := by
  have hkeep : ∀ b, s.clientUDPAddr = some b → some a = some b := by
    intro b hb
    rw [ha b hb]
  refine ⟨hs.idle, fun src hsrc => ?_, fun r d hd => ?_, fun f hf => ?_, fun d hd => ?_⟩
  · rw [h] at hsrc
    cases hsrc
  · exact hkeep _ (hs.pending r d hd)
  · obtain ⟨b, hb, hsame⟩ := hs.forwarded f hf
    exact ⟨b, hkeep b hb, hsame⟩
  · exact hkeep _ (hs.replies d hd)

/-- The binding a datagram of `src` finds or makes. -/
theorem bindClientUDPAddr_some {client c : Option UDPAddr} {ok : Bool}
    (h : bindClientUDPAddr client src = (c, ok)) :
    ∃ a, c = some a ∧ ok = sameClient a src ∧ (∀ b, client = some b → b = a) ∧
      (client = none → a = src) := by
  cases client with
  | none =>
    cases h
    exact ⟨src, rfl, (sameClient_self src).symm, fun _ => nofun, fun _ => rfl⟩
  | some a =>
    cases h
    exact ⟨a, rfl, rfl, fun b hb => (Option.some.inj hb).symm, nofun⟩

/-- Everything a datagram does, up to the work it leaves to the loop. -/
theorem datagram_step {d : Direct.Datagram}
    (h : step routeDirect s (.datagram src d) = some t) :
    s.loop = .reading ∧ (parseSOCKS5UDPRequest d.data = none ∧ t = s ∨
      ∃ packet a, parseSOCKS5UDPRequest d.data = some packet ∧
        (∀ b, s.clientUDPAddr = some b → b = a) ∧ (s.clientUDPAddr = none → a = src) ∧
        (sameClient a src = false ∧ t = { s with clientUDPAddr := some a } ∨
          sameClient a src = true ∧
            ((∃ r, t = afterDirect { s with clientUDPAddr := some a } src packet.payload r) ∨
              ∃ route, t = { s with
                clientUDPAddr := some a
                loop := .picking src packet route }))) := by
  simp only [step] at h
  split at h
  · rename_i hloop
    refine ⟨hloop, ?_⟩
    split at h
    · rename_i hp
      cases h
      exact Or.inl ⟨hp, rfl⟩
    · rename_i packet hp
      obtain ⟨a, hc, hok, hold, hnew⟩ :=
        @bindClientUDPAddr_some src s.clientUDPAddr (bindClientUDPAddr s.clientUDPAddr src).1
          (bindClientUDPAddr s.clientUDPAddr src).2 rfl
      rw [hc, hok] at h
      refine Or.inr ⟨packet, a, hp, hold, hnew, ?_⟩
      split at h
      · rename_i hsame
        refine Or.inr ⟨hsame, ?_⟩
        split at h
        · obtain ⟨r, -, rfl⟩ := Option.map_eq_some_iff.mp h
          exact Or.inl ⟨r, rfl⟩
        · cases h
          exact Or.inr ⟨_, rfl⟩
      · rename_i hsame
        cases h
        exact Or.inl ⟨by simpa using hsame, rfl⟩
  · cases h

theorem inv_datagram {d : Direct.Datagram} (hs : Inv s)
    (h : step routeDirect s (.datagram src d) = some t) : Inv t := by
  obtain ⟨hloop, ⟨-, rfl⟩ | ⟨packet, a, -, hold, -, hcase⟩⟩ := datagram_step h
  · exact hs
  · have hbound := inv_bind hs hloop hold
    rcases hcase with ⟨-, rfl⟩ | ⟨hsame, ⟨r, rfl⟩ | ⟨route, rfl⟩⟩
    · exact hbound
    · exact inv_afterDirect hbound ⟨a, rfl, hsame⟩
    · refine hbound.loop (fun x p hx => ?_) (fun x hx => ?_)
      · rw [show s.loop = _ from hx] at hloop
        cases hloop
      · cases hx
        exact ⟨a, rfl, hsame⟩

theorem inv_direct {f : Direct.Event} (hs : Inv s)
    (h : step routeDirect s (.direct f) = some t) : Inv t := by
  simp only [step] at h
  split at h
  · rename_i hf
    obtain ⟨r, hr, rfl⟩ := Option.map_eq_some_iff.mp h
    refine ⟨fun hd => ?_, hs.source, hs.pending, hs.forwarded, hs.replies⟩
    rw [pc_of_reader hf hr]
    exact hs.idle hd
  · split at h
    · rename_i src payload hloop
      obtain ⟨r, -, rfl⟩ := Option.map_eq_some_iff.mp h
      exact inv_afterDirect hs (hs.source src (by rw [hloop]; rfl))
    · cases h

/-- The response of a reading goroutine goes to the address bound when it was made. -/
theorem inv_received {r : Reader} {payload : Bytes} (hs : Inv s)
    (h : step routeDirect s (.received r src payload) = some t) : Inv t := by
  simp only [step] at h
  split at h
  · split at h
    · cases h
      exact hs
    · rename_i dst hdst
      split at h
      · cases h
        exact hs
      · cases h
        refine ⟨hs.idle, hs.source, fun r' d hd => ?_, hs.forwarded, hs.replies⟩
        dsimp only at hd
        by_cases hr : r' = r
        · subst hr
          rw [Function.update_self] at hd
          cases hd
          exact hdst
        · rw [Function.update_of_ne hr] at hd
          exact hs.pending r' d hd
  · cases h

theorem inv_written {r : Reader} {ok : Bool} (hs : Inv s)
    (h : step routeDirect s (.written r ok) = some t) : Inv t := by
  simp only [step] at h
  split at h
  · cases h
  · rename_i d hd
    cases h
    refine ⟨hs.idle, hs.source, fun r' d' hd' => ?_, hs.forwarded, fun d' hd' => ?_⟩
    · dsimp only at hd'
      by_cases hr : r' = r
      · subst hr
        rw [Function.update_self] at hd'
        cases hd'
      · rw [Function.update_of_ne hr] at hd'
        exact hs.pending r' d' hd'
    · cases ok with
      | false => exact hs.replies d' hd'
      | true =>
        rcases List.mem_cons.mp hd' with rfl | hd'
        · exact hs.pending r d' hd
        · exact hs.replies d' hd'

/-- The broker path works for the source it was handed, and hands on that source. -/
theorem inv_broker (hs : Inv s)
    (he : e = .pickBroker ∨ (∃ ok, e = .dialBroker ok) ∨ ∃ ok, e = .sendBroker ok)
    (h : step routeDirect s e = some t) : Inv t := by
  rcases he with rfl | ⟨ok, rfl⟩ | ⟨ok, rfl⟩
  · simp only [step] at h
    split at h
    · rename_i src packet route hloop
      have hd : ∀ x p, s.loop ≠ .direct x p := by
        rw [hloop]
        exact fun x p => nofun
      have hsrc := hs.source src (by rw [hloop]; rfl)
      split at h
      · cases h
        exact hs.loop hd fun x hx => by cases hx; exact hsrc
      · cases h
        exact hs.loop hd fun x hx => by cases hx; exact hsrc
    · cases h
  · simp only [step] at h
    split at h
    · rename_i src packet route hloop
      have hd : ∀ x p, s.loop ≠ .direct x p := by
        rw [hloop]
        exact fun x p => nofun
      have hsrc := hs.source src (by rw [hloop]; rfl)
      split at h
      · split at h
        · cases h
          exact hs.loop hd fun x hx => by cases hx; exact hsrc
        · cases h
          exact hs.loop hd fun x hx => by cases hx; exact hsrc
      · cases h
        exact hs.loop hd nofun
    · cases h
  · simp only [step] at h
    split at h
    · rename_i src packet id hloop
      have hd : ∀ x p, s.loop ≠ .direct x p := by
        rw [hloop]
        exact fun x p => nofun
      have hsrc := hs.source src (by rw [hloop]; rfl)
      split at h
      · cases h
      · split at h
        · cases h
          exact hs.loop hd nofun
        · split at h
          · cases h
            refine ⟨fun _ => hs.idle hd, nofun, hs.pending, fun f hf => ?_, hs.replies⟩
            rcases List.mem_cons.mp hf with rfl | hf
            · exact hsrc
            · exact hs.forwarded f hf
          · cases h
            exact hs.loop hd nofun
    · cases h

theorem inv_step (hs : Inv s) (h : step routeDirect s e = some t) : Inv t := by
  cases e with
  | datagram src d => exact inv_datagram hs h
  | stop =>
    simp only [step] at h
    split at h
    · rename_i hloop
      cases h
      exact ⟨fun _ => hs.idle (hloop ▸ nofun), nofun, hs.pending, hs.forwarded, hs.replies⟩
    · cases h
  | direct f => exact inv_direct hs h
  | pickBroker => exact inv_broker hs (Or.inl rfl) h
  | dialBroker ok => exact inv_broker hs (Or.inr (Or.inl ⟨ok, rfl⟩)) h
  | sendBroker ok => exact inv_broker hs (Or.inr (Or.inr ⟨ok, rfl⟩)) h
  | brokerCloses id =>
    simp only [step] at h
    split at h <;> cases h
    exact ⟨hs.idle, hs.source, hs.pending, hs.forwarded, hs.replies⟩
  | brokerForgets id =>
    simp only [step] at h
    split at h
    · cases h
    · split at h <;> cases h
      exact ⟨hs.idle, hs.source, hs.pending, hs.forwarded, hs.replies⟩
  | received r src payload => exact inv_received hs h
  | written r ok => exact inv_written hs h

/-- Only a well-formed datagram binds, and only where nothing is bound. -/
theorem client_step (h : step routeDirect s e = some t) :
    t.clientUDPAddr = s.clientUDPAddr ∨
      ∃ src d, e = .datagram src d ∧ s.loop = .reading ∧ s.clientUDPAddr = none ∧
        (parseSOCKS5UDPRequest d.data).isSome = true ∧ t.clientUDPAddr = some src := by
  cases e with
  | datagram src d =>
    obtain ⟨hloop, ⟨-, rfl⟩ | ⟨packet, a, hp, hold, hnew, hcase⟩⟩ := datagram_step h
    · exact Or.inl rfl
    · have ht : t.clientUDPAddr = some a := by
        rcases hcase with ⟨-, rfl⟩ | ⟨-, ⟨r, rfl⟩ | ⟨route, rfl⟩⟩ <;> rfl
      cases hc : s.clientUDPAddr with
      | none =>
        rw [hnew hc] at ht
        exact Or.inr ⟨src, d, rfl, hloop, rfl, by rw [hp]; rfl, ht⟩
      | some b => exact Or.inl (by rw [ht, hold b hc])
  | direct f =>
    simp only [step] at h
    split at h
    · obtain ⟨r, -, rfl⟩ := Option.map_eq_some_iff.mp h
      exact Or.inl rfl
    · split at h
      · obtain ⟨r, -, rfl⟩ := Option.map_eq_some_iff.mp h
        exact Or.inl rfl
      · cases h
  | _ =>
    left
    simp only [step] at h
    repeat' split at h
    all_goals cases h
    all_goals rfl

theorem keepsBinding (s : State) (e : Event) : KeepsBinding routeDirect s e := by
  intro t a h ha
  rcases client_step h with hc | ⟨src, d, -, -, hnone, -, -⟩
  · rw [hc, ha]
  · rw [hnone] at ha
    cases ha

theorem onBehalf_step (hs : Inv s) (hp : OnBehalf peer s) (hC : BindsPeer peer s e)
    (h : step routeDirect s e = some t) : OnBehalf peer t := by
  have ht := inv_step hs h
  refine ⟨fun a ha => ?_, ht.forwarded, ht.replies⟩
  rcases client_step h with hc | ⟨src, d, rfl, hloop, hnone, hparse, hsrc⟩
  · exact hp.peer a (hc ▸ ha)
  · rw [hsrc] at ha
    cases ha
    exact hC hloop hnone hparse

/-- A well-formed datagram that finds no address bound is taken, whatever its source. -/
theorem stranger_bound (hs : Inv s) (hC : ¬BindsPeer peer s e) :
    ∃ t, step routeDirect s e = some t ∧ ¬OnBehalf peer t := by
  cases e with
  | datagram src d =>
    simp only [BindsPeer, Classical.not_imp] at hC
    obtain ⟨hloop, hnone, hparse, hip⟩ := hC
    obtain ⟨packet, hp⟩ := Option.isSome_iff_exists.mp hparse
    have hidle : s.relay.pc = .reading := hs.idle (by rw [hloop]; exact nofun)
    have henabled : ∃ t, step routeDirect s (.datagram src d) = some t := by
      simp only [step, hloop, hp, hnone, bindClientUDPAddr, ↓reduceIte]
      split
      · rename_i hroute
        simp only [Direct.step, hidle, hp, hroute, ↓reduceIte]
        split <;> exact ⟨_, rfl⟩
      · exact ⟨_, rfl⟩
    obtain ⟨t, ht⟩ := henabled
    refine ⟨t, ht, fun hgood => hip (hgood.peer src ?_)⟩
    obtain ⟨-, ⟨hp', -⟩ | ⟨_, a, -, -, hnew, hcase⟩⟩ := datagram_step ht
    · rw [hp] at hp'
      cases hp'
    · rw [← hnew hnone]
      rcases hcase with ⟨-, rfl⟩ | ⟨-, ⟨r, rfl⟩ | ⟨route, rfl⟩⟩ <;> rfl
  | _ => exact absurd trivial hC

/-- An association works for one address that never changes; that the address is the
client's own is decided by its first well-formed datagram. -/
theorem onBehalf_iff_bindsPeer (routeDirect : Route) (peer : Addr) (es : List Event) :
    (Always (step routeDirect) (OnBehalf peer) start es ∧
      Meets (step routeDirect) (KeepsBinding routeDirect) start es) ↔
    Meets (step routeDirect) (BindsPeer peer) start es := by
  have hstart : OnBehalf peer start := ⟨nofun, nofun, nofun⟩
  have hiff := @always_iff_meets _ _ (step routeDirect) (BindsPeer peer) Inv (OnBehalf peer)
    (fun s e t => inv_step) (fun s e t => onBehalf_step) (fun s e hs _ => stranger_bound hs)
    start es inv_start hstart
  constructor
  · intro h
    exact hiff.mp h.1
  · intro h
    exact ⟨hiff.mpr h, meets_of_forall keepsBinding start es⟩

/-- The client at 10.0.0.5 has not sent anything when a datagram of 203.0.113.9 is
forwarded to 1.1.1.1:53. -/
theorem stranger_forwarded :
    ¬∀ routeDirect peer es,
      Always (step routeDirect) (OnBehalf peer) start es ∧
        Meets (step routeDirect) (KeepsBinding routeDirect) start es := by
  intro h
  let stranger : UDPAddr := ⟨.v4 0xCB007109, 4444, [], by decide, rfl⟩
  let es : List Event :=
    [.datagram stranger ⟨[0, 0, 0, 1, 1, 1, 1, 1, 0, 53, 0x78], fun _ => none, none⟩, .direct .pick,
      .direct (.dial true), .direct (.send true)]
  have hrun : (run (step (ascii "direct")) start es).map
      (fun s => (s.clientUDPAddr, s.forwarded)) = some (some stranger, [(stranger, [0x78])]) := by
    decide +kernel
  obtain ⟨t, ht, hs⟩ := Option.map_eq_some_iff.mp hrun
  have hbehalf := (h (ascii "direct") (.v4 0x0A000005) es).1 es [] t (List.append_nil es).symm ht
  exact absurd (hbehalf.peer stranger (congrArg Prod.fst hs)) (by decide)

end SplitProxy.ClientBinding
