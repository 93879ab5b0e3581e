import SplitProxy.Runs
import SplitProxy.Routing
import SplitProxy.Socks5
import SplitProxy.HTTPConnect
import SplitProxy.Wire

/-!
# One client connection

`handleConn` from the first byte to the end of the tunnel: protocol detection,
TLS around it, the two handlers with their authentication, the dispatch of the
command, and the accounting of what is relayed. The connection keeps a log of
what the proxy did on its behalf.
-/
namespace SplitProxy.HandleConn

open Runs GoText NetIP Routing HTTPConnect Socks5

/-- What Go's library makes of a stream: the request with the bytes it leaves in
the reader, and the plaintext behind a handshake that completes. -/
structure Library where
  readRequest : Bytes → Option (Request × Bytes)
  handshake : Bytes → Option Bytes

/-- A library that never gets a request or a handshake out of the stream. -/
def noLibrary : Library := ⟨fun _ => none, fun _ => none⟩

/-- The settings of the proxy, and the answers of its `AuthStore`. -/
structure Proxy where
  routeDirect : Route
  /-- `net.ParseIP(UDPRelayHost).To4()` -/
  udpRelayIP : Option (BitVec 32)
  checkCredentials : Bytes → Bytes → Bool

inductive Protocol where
  | http
  | socks5
  | tls
  deriving DecidableEq, Repr

def detectProtocol (s : Bytes) : Option Protocol :=
  match s with
  | [] => none
  | b :: _ =>
    if b = 0x05 then some .socks5
    else if 3 ≤ s.length ∧ s.take 2 = [0x16, 0x03] then some .tls
    else if s.take 7 = methodConnect then some .http
    else none

inductive Direction where
  | clientToTarget
  | targetToClient
  deriving DecidableEq, Repr

/-- The two values of the `path` label. -/
inductive Path where
  | direct
  | worker
  deriving DecidableEq, Repr

/-- What the proxy does on behalf of a connection. -/
inductive Action where
  | reply (text : Bytes)
  | checked (username password : Bytes) (ok : Bool)
  | tracked (username : Bytes)
  | dialed (address : Bytes)
  | openedSession (route : Route) (address : Bytes) (mode : Mode)
  | listenedUDP
  | dialedUDP (address : Bytes)
  | traffic (username : Bytes) (direction : Direction) (path : Path) (n : Nat)
  deriving DecidableEq, Repr

/-- `recordTraffic`, whose label for no name is `unknown`. -/
def recordTraffic (username : Bytes) (direction : Direction) (path : Path) (n : Nat) :
    List Action :=
  if n = 0 then []
  else [.traffic (if username = [] then ascii "unknown" else username) direction path n]

/-- Who answers the client once the target is reached. -/
inductive Handler where
  | http
  | socks5
  deriving DecidableEq, Repr

def Handler.success : Handler → Bytes
  | .http => connectionEstablished
  | .socks5 => socks5Success

/-- Where the goroutine of a connection stands. -/
inductive Pc where
  | accepted
  | handshaking
  | secured
  | http
  | authorizing (req : Request)
  | serving (req : Request) (username : Bytes)
  | socks5
  | negotiating
  | commanding (username : Bytes)
  | connecting (handler : Handler) (username address : Bytes) (route : Route)
  | waiting (handler : Handler) (username address : Bytes)
  | connected (handler : Handler) (username address : Bytes) (path : Path)
  | tunnel (username address : Bytes) (path : Path)
  | associating (username : Bytes)
  | listening (username : Bytes) (port : Nat)
  | relay (username : Bytes)
  | forwarding (username : Bytes) (packet : SOCKS5UDPPacket) (route : Route)
  | closed
  deriving DecidableEq, Repr

structure State where
  pc : Pc
  /-- bytes left in the reader in use -/
  input : Bytes
  /-- what has been done so far, the latest first -/
  log : List Action

def initial (stream : Bytes) : State := ⟨.accepted, stream, []⟩

/-- `ok` is whether the write, dial, request or wait of the step succeeds, `link`
whether `getBrokerConnection` gave a connection to open the session on. -/
inductive Event where
  | detect
  | detectTimeout
  | handshake (ok : Bool)
  | readRequest
  | checkAuthUser
  | serve (dns : Answers) (routes : Option RouteCache)
  | greet (ok : Bool)
  | authenticate (ok : Bool)
  | command (dns : Answers) (routes : Option RouteCache)
  | dial (ok : Bool)
  | openSession (link ok : Bool)
  | waitConnected (ok : Bool)
  | onConnected (ok : Bool)
  | transfer (direction : Direction) (n : Nat)
  | listen (port : Option Nat)
  | associate (ok : Bool)
  | datagram (data : Bytes) (dns : Answers) (routes : Option RouteCache)
  | dialUDP (ip : Addr)
  | openUDP (link ok : Bool)
  | sendUDP (n : Nat)
  | forwarded
  | answerUDP (path : Path) (n : Nat)
  | hangUp

/-- Go on at `pc` after some actions, the latest first. -/
def advance (s : State) (pc : Pc) (actions : List Action) : State :=
  { s with pc := pc, log := actions ++ s.log }

/-- `handleConn` and, once inside TLS, `handleTLS`. -/
def detected (s : State) (inTLS : Bool) : State :=
  match detectProtocol s.input with
  | some .http => advance s .http []
  | some .socks5 => advance s .socks5 []
  | some .tls => if inTLS then advance s .closed [] else advance s .handshaking []
  | none => advance s .closed (if inTLS then [] else [.reply (proxyError badRequest)])

/-- `switch req.Method` in `handleHTTPProxy`. -/
def served (P : Proxy) (s : State) (req : Request) (username : Bytes) (dns : Answers)
    (routes : Option RouteCache) : State :=
  if req.method = methodConnect then
    match parseConnectTarget req with
    | none => advance s .closed [.reply (proxyError badRequest)]
    | some (host, port) =>
      advance s (.connecting .http username (joinHostPort host port)
        (resolveRoute P.routeDirect dns routes host)) []
  else advance s .closed [.reply (proxyError notImplemented)]

/-- `authenticateSOCKS5` and what follows it. -/
def authenticated (P : Proxy) (s : State) (ok : Bool) : State :=
  match readCredentials s.input with
  | none => advance s .closed []
  | some (username, password, rest) =>
    if P.checkCredentials username password then
      if ok then
        advance { s with input := rest } (.commanding username)
          [.tracked username, .reply [0x01, 0x00], .checked username password true]
      else advance s .closed [.reply [0x01, 0x00], .checked username password true]
    else advance s .closed [.reply [0x01, 0x01], .checked username password false]

/-- `switch req.CMD` in `handleSOCKS5`, and the route in `handleSOCKS5Connect`. -/
def commanded (P : Proxy) (s : State) (username : Bytes) (dns : Answers)
    (routes : Option RouteCache) : State :=
  match readSOCKS5Request s.input with
  | none => advance s .closed []
  | some (req, rest) =>
    if req.cmd = 0x01 then
      advance { s with input := rest }
        (.connecting .socks5 username (joinHostPort req.host (itoa req.port))
          (resolveRoute P.routeDirect dns routes req.host)) []
    else if req.cmd = 0x03 then advance { s with input := rest } (.associating username) []
    else advance s .closed [.reply commandNotSupported]

def step (L : Library) (P : Proxy) (s : State) : Event → Option State
  | .detect =>
    match s.pc with
    | .accepted => some (detected s false)
    | .secured => some (detected s true)
    | _ => none
  | .detectTimeout =>
    if s.pc = .accepted then some (advance s .closed [.reply (proxyError badRequest)]) else none
  | .handshake ok =>
    if s.pc = .handshaking then
      match ok, L.handshake s.input with
      | true, some plain => some (advance { s with input := plain } .secured [])
      | _, _ => some (advance s .closed [])
    else none
  | .readRequest =>
    if s.pc = .http then
      match L.readRequest s.input with
      | none => some (advance s .closed [.reply (proxyError badRequest)])
      | some (req, rest) => some (advance { s with input := rest } (.authorizing req) [])
    else none
  | .checkAuthUser =>
    match s.pc with
    | .authorizing req =>
      match basicCredentials req.proxyAuthorization with
      | none => some (advance s .closed [.reply proxyAuthRequired])
      | some (username, password) =>
        if P.checkCredentials username password then
          some (advance s (.serving req username)
            [.tracked username, .checked username password true])
        else
          some (advance s .closed [.reply proxyAuthRequired, .checked username password false])
    | _ => none
  | .serve dns routes =>
    match s.pc with
    | .serving req username => some (served P s req username dns routes)
    | _ => none
  | .greet ok =>
    if s.pc = .socks5 then
      match readGreeting s.input with
      | none => some (advance s .closed [])
      | some (methods, rest) =>
        if containsByte methods 0x02 then
          some (advance { s with input := rest } (if ok then .negotiating else .closed)
            [.reply [0x05, 0x02]])
        else some (advance s .closed [.reply [0x05, 0xff]])
    else none
  | .authenticate ok => if s.pc = .negotiating then some (authenticated P s ok) else none
  | .command dns routes =>
    match s.pc with
    | .commanding username => some (commanded P s username dns routes)
    | _ => none
  | .dial ok =>
    match s.pc with
    | .connecting handler username address route =>
      if route = P.routeDirect then
        some (advance s (if ok then .connected handler username address .direct else .closed)
          [.dialed address])
      else none
    | _ => none
  | .openSession link ok =>
    match s.pc with
    | .connecting handler username address route =>
      if route = P.routeDirect then none
      else if link then
        some (advance s (if ok then .waiting handler username address else .closed)
          [.openedSession route address .tcp])
      else some (advance s .closed [])
    | _ => none
  | .waitConnected ok =>
    match s.pc with
    | .waiting handler username address =>
      some (advance s (if ok then .connected handler username address .worker else .closed) [])
    | _ => none
  | .onConnected ok =>
    match s.pc with
    | .connected handler username address path =>
      some (advance s (if ok then .tunnel username address path else .closed)
        [.reply handler.success])
    | _ => none
  | .transfer direction n =>
    match s.pc with
    | .tunnel username _ path => some (advance s s.pc (recordTraffic username direction path n))
    | _ => none
  | .listen port =>
    match s.pc with
    | .associating username =>
      match port with
      | none => some (advance s .closed [.listenedUDP])
      | some port => some (advance s (.listening username port) [.listenedUDP])
    | _ => none
  | .associate ok =>
    match s.pc with
    | .listening username port =>
      match P.udpRelayIP with
      | none => some (advance s .closed [])
      | some ip =>
        some (advance s (if ok then .relay username else .closed)
          [.reply (udpAssociateSuccess ip port)])
    | _ => none
  | .datagram data dns routes =>
    match s.pc with
    | .relay username =>
      match parseSOCKS5UDPRequest data with
      | none => some s
      | some packet =>
        some (advance s (.forwarding username packet
          (resolveRoute P.routeDirect dns routes packet.host)) [])
    | _ => none
  | .dialUDP ip =>
    match s.pc with
    | .forwarding _ packet route =>
      if route = P.routeDirect then
        some (advance s s.pc [.dialedUDP (joinHostPort ip.string (itoa packet.port))])
      else none
    | _ => none
  | .openUDP link ok =>
    match s.pc with
    | .forwarding username packet route =>
      if route = P.routeDirect then none
      else if link then
        some (advance s (if ok then s.pc else .relay username)
          [.openedSession route (joinHostPort packet.host (itoa packet.port)) .udp])
      else some (advance s (.relay username) [])
    | _ => none
  | .sendUDP n =>
    match s.pc with
    | .forwarding username packet route =>
      if n ≤ packet.payload.length then
        some (advance s s.pc (recordTraffic username .clientToTarget
          (if route = P.routeDirect then .direct else .worker) n))
      else none
    | _ => none
  | .forwarded =>
    match s.pc with
    | .forwarding username _ _ => some (advance s (.relay username) [])
    | _ => none
  | .answerUDP path n =>
    match s.pc with
    | .relay username => some (advance s s.pc (recordTraffic username .targetToClient path n))
    | .forwarding username _ _ =>
      some (advance s s.pc (recordTraffic username .targetToClient path n))
    | _ => none
  | .hangUp =>
    match s.pc with
    | .tunnel _ _ _ => some (advance s .closed [])
    | .relay _ => some (advance s .closed [])
    | _ => none

/-! ## What a step does -/

inductive Move (L : Library) (P : Proxy) (s : State) : Event → State → Prop where
  | detect (hpc : s.pc = .accepted) : Move L P s .detect (detected s false)
  | detectInTLS (hpc : s.pc = .secured) : Move L P s .detect (detected s true)
  | detectTimeout (hpc : s.pc = .accepted) :
      Move L P s .detectTimeout (advance s .closed [.reply (proxyError badRequest)])
  | handshake {plain : Bytes} (hpc : s.pc = .handshaking)
      (hplain : L.handshake s.input = some plain) :
      Move L P s (.handshake true) (advance { s with input := plain } .secured [])
  | handshakeFailed {ok : Bool} (hpc : s.pc = .handshaking)
      (hno : ok = false ∨ L.handshake s.input = none) :
      Move L P s (.handshake ok) (advance s .closed [])
  | unreadable (hpc : s.pc = .http) (hno : L.readRequest s.input = none) :
      Move L P s .readRequest (advance s .closed [.reply (proxyError badRequest)])
  | readRequest {req : Request} {rest : Bytes} (hpc : s.pc = .http)
      (hreq : L.readRequest s.input = some (req, rest)) :
      Move L P s .readRequest (advance { s with input := rest } (.authorizing req) [])
  | unauthorized {req : Request} (hpc : s.pc = .authorizing req)
      (hno : basicCredentials req.proxyAuthorization = none) :
      Move L P s .checkAuthUser (advance s .closed [.reply proxyAuthRequired])
  | authorized {req : Request} {username password : Bytes} (hpc : s.pc = .authorizing req)
      (hauth : basicCredentials req.proxyAuthorization = some (username, password))
      (hok : P.checkCredentials username password = true) :
      Move L P s .checkAuthUser
        (advance s (.serving req username) [.tracked username, .checked username password true])
  | refused {req : Request} {username password : Bytes} (hpc : s.pc = .authorizing req)
      (hauth : basicCredentials req.proxyAuthorization = some (username, password))
      (hno : P.checkCredentials username password = false) :
      Move L P s .checkAuthUser
        (advance s .closed [.reply proxyAuthRequired, .checked username password false])
  | serve {req : Request} {username : Bytes} {dns : Answers} {routes : Option RouteCache}
      (hpc : s.pc = .serving req username) :
      Move L P s (.serve dns routes) (served P s req username dns routes)
  | noGreeting {ok : Bool} (hpc : s.pc = .socks5) (hno : readGreeting s.input = none) :
      Move L P s (.greet ok) (advance s .closed [])
  | greet {ok : Bool} {methods rest : Bytes} (hpc : s.pc = .socks5)
      (hread : readGreeting s.input = some (methods, rest))
      (hmethod : containsByte methods 0x02 = true) :
      Move L P s (.greet ok)
        (advance { s with input := rest } (if ok then .negotiating else .closed)
          [.reply [0x05, 0x02]])
  | noMethod {ok : Bool} {methods rest : Bytes} (hpc : s.pc = .socks5)
      (hread : readGreeting s.input = some (methods, rest))
      (hno : containsByte methods 0x02 = false) :
      Move L P s (.greet ok) (advance s .closed [.reply [0x05, 0xff]])
  | authenticate {ok : Bool} (hpc : s.pc = .negotiating) :
      Move L P s (.authenticate ok) (authenticated P s ok)
  | command {username : Bytes} {dns : Answers} {routes : Option RouteCache}
      (hpc : s.pc = .commanding username) :
      Move L P s (.command dns routes) (commanded P s username dns routes)
  | dial {ok : Bool} {handler : Handler} {username address : Bytes} {route : Route}
      (hpc : s.pc = .connecting handler username address route) (hroute : route = P.routeDirect) :
      Move L P s (.dial ok)
        (advance s (if ok then .connected handler username address .direct else .closed)
          [.dialed address])
  | openSession {ok : Bool} {handler : Handler} {username address : Bytes} {route : Route}
      (hpc : s.pc = .connecting handler username address route) (hroute : route ≠ P.routeDirect) :
      Move L P s (.openSession true ok)
        (advance s (if ok then .waiting handler username address else .closed)
          [.openedSession route address .tcp])
  | noLink {ok : Bool} {handler : Handler} {username address : Bytes} {route : Route}
      (hpc : s.pc = .connecting handler username address route) (hroute : route ≠ P.routeDirect) :
      Move L P s (.openSession false ok) (advance s .closed [])
  | waitConnected {ok : Bool} {handler : Handler} {username address : Bytes}
      (hpc : s.pc = .waiting handler username address) :
      Move L P s (.waitConnected ok)
        (advance s (if ok then .connected handler username address .worker else .closed) [])
  | onConnected {ok : Bool} {handler : Handler} {username address : Bytes} {path : Path}
      (hpc : s.pc = .connected handler username address path) :
      Move L P s (.onConnected ok)
        (advance s (if ok then .tunnel username address path else .closed)
          [.reply handler.success])
  | transfer {direction : Direction} {n : Nat} {username address : Bytes} {path : Path}
      (hpc : s.pc = .tunnel username address path) :
      Move L P s (.transfer direction n)
        (advance s s.pc (recordTraffic username direction path n))
  | noSocket {username : Bytes} (hpc : s.pc = .associating username) :
      Move L P s (.listen none) (advance s .closed [.listenedUDP])
  | listen {username : Bytes} {port : Nat} (hpc : s.pc = .associating username) :
      Move L P s (.listen (some port)) (advance s (.listening username port) [.listenedUDP])
  | noRelayIP {ok : Bool} {username : Bytes} {port : Nat} (hpc : s.pc = .listening username port)
      (hno : P.udpRelayIP = none) : Move L P s (.associate ok) (advance s .closed [])
  | associate {ok : Bool} {username : Bytes} {port : Nat} {ip : BitVec 32}
      (hpc : s.pc = .listening username port) (hip : P.udpRelayIP = some ip) :
      Move L P s (.associate ok)
        (advance s (if ok then .relay username else .closed) [.reply (udpAssociateSuccess ip port)])
  | malformed {data : Bytes} {dns : Answers} {routes : Option RouteCache} {username : Bytes}
      (hpc : s.pc = .relay username) (hno : parseSOCKS5UDPRequest data = none) :
      Move L P s (.datagram data dns routes) s
  | datagram {data : Bytes} {dns : Answers} {routes : Option RouteCache} {username : Bytes}
      {packet : SOCKS5UDPPacket} (hpc : s.pc = .relay username)
      (hpacket : parseSOCKS5UDPRequest data = some packet) :
      Move L P s (.datagram data dns routes)
        (advance s (.forwarding username packet
          (resolveRoute P.routeDirect dns routes packet.host)) [])
  | dialUDP {ip : Addr} {username : Bytes} {packet : SOCKS5UDPPacket} {route : Route}
      (hpc : s.pc = .forwarding username packet route) (hroute : route = P.routeDirect) :
      Move L P s (.dialUDP ip)
        (advance s s.pc [.dialedUDP (joinHostPort ip.string (itoa packet.port))])
  | openUDP {ok : Bool} {username : Bytes} {packet : SOCKS5UDPPacket} {route : Route}
      (hpc : s.pc = .forwarding username packet route) (hroute : route ≠ P.routeDirect) :
      Move L P s (.openUDP true ok)
        (advance s (if ok then s.pc else .relay username)
          [.openedSession route (joinHostPort packet.host (itoa packet.port)) .udp])
  | noUDPLink {ok : Bool} {username : Bytes} {packet : SOCKS5UDPPacket} {route : Route}
      (hpc : s.pc = .forwarding username packet route) (hroute : route ≠ P.routeDirect) :
      Move L P s (.openUDP false ok) (advance s (.relay username) [])
  | sendUDP {n : Nat} {username : Bytes} {packet : SOCKS5UDPPacket} {route : Route}
      (hpc : s.pc = .forwarding username packet route) (hn : n ≤ packet.payload.length) :
      Move L P s (.sendUDP n)
        (advance s s.pc (recordTraffic username .clientToTarget
          (if route = P.routeDirect then .direct else .worker) n))
  | forwarded {username : Bytes} {packet : SOCKS5UDPPacket} {route : Route}
      (hpc : s.pc = .forwarding username packet route) :
      Move L P s .forwarded (advance s (.relay username) [])
  | answerUDP {path : Path} {n : Nat} {username : Bytes}
      (hpc : s.pc = .relay username ∨ ∃ packet route, s.pc = .forwarding username packet route) :
      Move L P s (.answerUDP path n) (advance s s.pc (recordTraffic username .targetToClient path n))
  | hangUpTunnel {username address : Bytes} {path : Path}
      (hpc : s.pc = .tunnel username address path) : Move L P s .hangUp (advance s .closed [])
  | hangUpRelay {username : Bytes} (hpc : s.pc = .relay username) :
      Move L P s .hangUp (advance s .closed [])

theorem step_move {L : Library} {P : Proxy} {s t : State} {e : Event} (h : step L P s e = some t) :
    Move L P s e t := by
  cases e with
  | detect =>
    simp only [step] at h
    split at h <;> cases h
    · exact .detect ‹_›
    · exact .detectInTLS ‹_›
  | detectTimeout =>
    simp only [step] at h
    split at h <;> cases h
    exact .detectTimeout ‹_›
  | handshake ok =>
    simp only [step] at h
    split at h
    · rename_i hpc
      cases ok with
      | false =>
        cases h
        exact .handshakeFailed hpc (Or.inl rfl)
      | true =>
        cases hh : L.handshake s.input with
        | none =>
          rw [hh] at h
          cases h
          exact .handshakeFailed hpc (Or.inr hh)
        | some plain =>
          rw [hh] at h
          cases h
          exact .handshake hpc hh
    · cases h
  | readRequest =>
    simp only [step] at h
    split at h
    · rename_i hpc
      split at h <;> cases h
      · exact .unreadable hpc ‹_›
      · exact .readRequest hpc ‹_›
    · cases h
  | checkAuthUser =>
    simp only [step] at h
    split at h
    · rename_i req hpc
      split at h
      · cases h
        exact .unauthorized hpc ‹_›
      · rename_i hauth
        split at h <;> rename_i hok <;> cases h
        · exact .authorized hpc hauth hok
        · exact .refused hpc hauth (Bool.eq_false_iff.mpr hok)
    · cases h
  | serve dns routes =>
    simp only [step] at h
    split at h <;> cases h
    exact .serve ‹_›
  | greet ok =>
    simp only [step] at h
    split at h
    · rename_i hpc
      split at h
      · cases h
        exact .noGreeting hpc ‹_›
      · rename_i hread
        split at h <;> rename_i hmethod <;> cases h
        · exact .greet hpc hread hmethod
        · exact .noMethod hpc hread (Bool.eq_false_iff.mpr hmethod)
    · cases h
  | authenticate ok =>
    simp only [step] at h
    split at h <;> cases h
    exact .authenticate ‹_›
  | command dns routes =>
    simp only [step] at h
    split at h <;> cases h
    exact .command ‹_›
  | dial ok =>
    simp only [step] at h
    split at h
    · rename_i hpc
      split at h <;> cases h
      exact .dial hpc ‹_›
    · cases h
  | openSession link ok =>
    simp only [step] at h
    split at h
    · rename_i hpc
      split at h
      · cases h
      · rename_i hroute
        cases link <;> cases h
        · exact .noLink hpc hroute
        · exact .openSession hpc hroute
    · cases h
  | waitConnected ok =>
    simp only [step] at h
    split at h <;> cases h
    exact .waitConnected ‹_›
  | onConnected ok =>
    simp only [step] at h
    split at h <;> cases h
    exact .onConnected ‹_›
  | transfer direction n =>
    simp only [step] at h
    split at h <;> cases h
    exact .transfer ‹_›
  | listen port =>
    simp only [step] at h
    split at h
    · rename_i hpc
      cases port <;> cases h
      · exact .noSocket hpc
      · exact .listen hpc
    · cases h
  | associate ok =>
    simp only [step] at h
    split at h
    · rename_i hpc
      split at h <;> cases h
      · exact .noRelayIP hpc ‹_›
      · exact .associate hpc ‹_›
    · cases h
  | datagram data dns routes =>
    simp only [step] at h
    split at h
    · rename_i hpc
      split at h <;> cases h
      · exact .malformed hpc ‹_›
      · exact .datagram hpc ‹_›
    · cases h
  | dialUDP ip =>
    simp only [step] at h
    split at h
    · rename_i hpc
      split at h <;> cases h
      exact .dialUDP hpc ‹_›
    · cases h
  | openUDP link ok =>
    simp only [step] at h
    split at h
    · rename_i hpc
      split at h
      · cases h
      · rename_i hroute
        cases link <;> cases h
        · exact .noUDPLink hpc hroute
        · exact .openUDP hpc hroute
    · cases h
  | sendUDP n =>
    simp only [step] at h
    split at h
    · rename_i hpc
      split at h <;> cases h
      exact .sendUDP hpc ‹_›
    · cases h
  | forwarded =>
    simp only [step] at h
    split at h <;> cases h
    exact .forwarded ‹_›
  | answerUDP path n =>
    simp only [step] at h
    split at h <;> cases h
    · exact .answerUDP (Or.inl ‹_›)
    · exact .answerUDP (Or.inr ⟨_, _, ‹_›⟩)
  | hangUp =>
    simp only [step] at h
    split at h <;> cases h
    · exact .hangUpTunnel ‹_›
    · exact .hangUpRelay ‹_›

end SplitProxy.HandleConn
