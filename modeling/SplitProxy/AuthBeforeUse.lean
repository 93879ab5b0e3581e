import SplitProxy.HandleConn

/-!
# Authentication comes before use

One pair of credentials, read from the stream of the connection and accepted by
`CheckCredentials`, stands in the log before every use of the proxy, and all
traffic is accounted under its user name.
-/
namespace SplitProxy.HandleConn

open Runs GoText NetIP Routing HTTPConnect Socks5

/-- The text the client speaks the protocol in, in the clear or inside TLS. -/
inductive Plain (L : Library) (stream : Bytes) : Bytes → Prop where
  | clear : Plain L stream stream
  | inTLS {plain : Bytes} (h : L.handshake stream = some plain) : Plain L stream plain

/-- The stream carries these credentials, with the request for this address, or
for a UDP association. -/
inductive Carries (L : Library) (stream username password : Bytes) : Option Bytes → Prop where
  | basic {plain rest host port : Bytes} {req : Request} (hp : Plain L stream plain)
      (hreq : L.readRequest plain = some (req, rest))
      (hauth : basicCredentials req.proxyAuthorization = some (username, password))
      (htarget : parseConnectTarget req = some (host, port)) :
      Carries L stream username password (some (joinHostPort host port))
  | connect {methods s rest : Bytes} {req : SOCKS5Request}
      (hp : Plain L stream (greeting methods ++ subnegotiation username password ++ s))
      (hreq : readSOCKS5Request s = some (req, rest)) (hcmd : req.cmd = 0x01) :
      Carries L stream username password (some (joinHostPort req.host (itoa req.port)))
  | associate {methods s rest : Bytes} {req : SOCKS5Request}
      (hp : Plain L stream (greeting methods ++ subnegotiation username password ++ s))
      (hreq : readSOCKS5Request s = some (req, rest)) (hcmd : req.cmd = 0x03) :
      Carries L stream username password none

/-- An outward effect, with the address the client itself asked for. -/
def Action.outward : Action → Option (Option Bytes)
  | .dialed address => some (some address)
  | .openedSession _ address .tcp => some (some address)
  | .openedSession _ _ .udp => some none
  | .listenedUDP => some none
  | .dialedUDP _ => some none
  | _ => none

/-- What must have happened before an action; `name` is what traffic of a user is
accounted under. -/
structure Warranted (L : Library) (P : Proxy) (stream : Bytes) (name : Bytes → Bytes)
    (username password : Bytes) (earlier : List Action) (a : Action) : Prop where
  check : ∀ u p ok, a = .checked u p ok → P.checkCredentials u p = ok
  outward : ∀ t, a.outward = some t →
    .checked username password true ∈ earlier ∧ Carries L stream username password t
  traffic : ∀ label d path n, a = .traffic label d path n →
    .checked username password true ∈ earlier ∧ (∃ t, Carries L stream username password t) ∧
      label = name username

/-- Every action of the log, the latest first, is warranted by those before it. -/
def Precedes (L : Library) (P : Proxy) (stream : Bytes) (name : Bytes → Bytes)
    (username password : Bytes) : List Action → Prop
  | [] => True
  | a :: earlier => Warranted L P stream name username password earlier a ∧
      Precedes L P stream name username password earlier

/-- One pair of credentials warrants all that was done. -/
def Authenticated (L : Library) (P : Proxy) (stream : Bytes) (name : Bytes → Bytes)
    (s : State) : Prop :=
  ∃ username password, Precedes L P stream name username password s.log

/-- The label `recordTraffic` uses. -/
def accountName (username : Bytes) : Bytes := if username = [] then ascii "unknown" else username

section

variable {L : Library} {P : Proxy} {stream : Bytes} {s t : State}

/-- Nothing done so far needs credentials. -/
def Innocent (L : Library) (P : Proxy) (stream : Bytes) (log : List Action) : Prop :=
  ∀ u p, Precedes L P stream accountName u p log

/-- The credentials are accepted and warrant what was done. -/
structure Known (L : Library) (P : Proxy) (stream : Bytes) (log : List Action) (u p : Bytes) :
    Prop where
  checked : .checked u p true ∈ log
  precedes : Precedes L P stream accountName u p log

/-- The credentials and the target stand in the stream. -/
def Cleared (L : Library) (P : Proxy) (stream : Bytes) (log : List Action) (u : Bytes)
    (target : Option Bytes) : Prop :=
  ∃ p, Known L P stream log u p ∧ Carries L stream u p target

def Inv (L : Library) (P : Proxy) (stream : Bytes) (s : State) : Prop :=
  match s.pc with
  | .accepted => s.input = stream ∧ Innocent L P stream s.log
  | .handshaking => s.input = stream ∧ Innocent L P stream s.log
  | .secured => Plain L stream s.input ∧ Innocent L P stream s.log
  | .http => Plain L stream s.input ∧ Innocent L P stream s.log
  | .socks5 => Plain L stream s.input ∧ Innocent L P stream s.log
  | .authorizing req =>
    (∃ plain, Plain L stream plain ∧ L.readRequest plain = some (req, s.input)) ∧
      Innocent L P stream s.log
  | .serving req u =>
    ∃ p, Known L P stream s.log u p ∧
      ∃ plain rest, Plain L stream plain ∧ L.readRequest plain = some (req, rest) ∧
        basicCredentials req.proxyAuthorization = some (u, p)
  | .negotiating =>
    (∃ methods, Plain L stream (greeting methods ++ s.input)) ∧ Innocent L P stream s.log
  | .commanding u =>
    ∃ p, Known L P stream s.log u p ∧
      ∃ methods, Plain L stream (greeting methods ++ subnegotiation u p ++ s.input)
  | .connecting _ u address _ => Cleared L P stream s.log u (some address)
  | .waiting _ u address => Cleared L P stream s.log u (some address)
  | .connected _ u address _ => Cleared L P stream s.log u (some address)
  | .tunnel u address _ => Cleared L P stream s.log u (some address)
  | .associating u => Cleared L P stream s.log u none
  | .listening u _ => Cleared L P stream s.log u none
  | .relay u => Cleared L P stream s.log u none
  | .forwarding u _ _ => Cleared L P stream s.log u none
  | .closed => Authenticated L P stream accountName s

/-- A reply and a user's gauge need no warrant. -/
def Action.Plainly (a : Action) : Prop :=
  a.outward = none ∧ (∀ u p ok, a ≠ .checked u p ok) ∧ ∀ l d path n, a ≠ .traffic l d path n

theorem warranted_plainly {name : Bytes → Bytes} {u p : Bytes} {log : List Action} {a : Action}
    (h : a.Plainly) : Warranted L P stream name u p log a where
  check := fun u' p' ok he => absurd he (h.2.1 u' p' ok)
  outward := fun t ht => by rw [h.1] at ht; cases ht
  traffic := fun l d path n he => absurd he (h.2.2 l d path n)

theorem plainly_reply (text : Bytes) : (Action.reply text).Plainly := ⟨rfl, nofun, nofun⟩

theorem plainly_tracked (u : Bytes) : (Action.tracked u).Plainly := ⟨rfl, nofun, nofun⟩

theorem Innocent.cons {log : List Action} {a : Action} (h : Innocent L P stream log)
    (ha : a.Plainly) : Innocent L P stream (a :: log) :=
  fun u p => ⟨warranted_plainly ha, h u p⟩

theorem Innocent.checked {log : List Action} {u p : Bytes} {ok : Bool}
    (h : Innocent L P stream log) (hok : P.checkCredentials u p = ok) :
    Innocent L P stream (.checked u p ok :: log) := by
  refine fun u' p' => ⟨⟨?_, nofun, nofun⟩, h u' p'⟩
  intro u₁ p₁ ok₁ he
  cases he
  exact hok

theorem Innocent.authenticated (h : Innocent L P stream s.log) :
    Authenticated L P stream accountName s := ⟨[], [], h [] []⟩

theorem Known.cons {log : List Action} {a : Action} {u p : Bytes} (h : Known L P stream log u p)
    (ha : Warranted L P stream accountName u p log a) : Known L P stream (a :: log) u p :=
  ⟨List.mem_cons_of_mem a h.checked, ha, h.precedes⟩

theorem Known.authenticated {u p : Bytes} (h : Known L P stream s.log u p) :
    Authenticated L P stream accountName s := ⟨u, p, h.precedes⟩

theorem Cleared.reply {log : List Action} {u text : Bytes} {target : Option Bytes}
    (h : Cleared L P stream log u target) : Cleared L P stream (.reply text :: log) u target := by
  obtain ⟨p, hk, hc⟩ := h
  exact ⟨p, hk.cons (warranted_plainly (plainly_reply text)), hc⟩

/-- An outward effect for the target the client asked for. -/
theorem Cleared.outward {log : List Action} {u : Bytes} {target : Option Bytes} {a : Action}
    (h : Cleared L P stream log u target) (ha : a.outward = some target) :
    Cleared L P stream (a :: log) u target := by
  obtain ⟨p, hk, hc⟩ := h
  refine ⟨p, hk.cons ⟨?_, ?_, ?_⟩, hc⟩
  · intro u' p' ok he
    rw [he] at ha
    cases ha
  · intro t ht
    rw [ha] at ht
    cases ht
    exact ⟨hk.checked, hc⟩
  · intro l d path n he
    rw [he] at ha
    cases ha

theorem Cleared.traffic {log : List Action} {u : Bytes} {target : Option Bytes}
    (h : Cleared L P stream log u target) (d : Direction) (path : Path) (n : Nat) :
    Cleared L P stream (recordTraffic u d path n ++ log) u target := by
  obtain ⟨p, hk, hc⟩ := h
  by_cases hn : n = 0
  · rw [recordTraffic, if_pos hn]
    exact ⟨p, hk, hc⟩
  · rw [recordTraffic, if_neg hn]
    refine ⟨p, hk.cons ⟨nofun, nofun, ?_⟩, hc⟩
    intro l d' path' n' he
    cases he
    exact ⟨hk.checked, ⟨target, hc⟩, rfl⟩

theorem Cleared.authenticated {u : Bytes} {target : Option Bytes}
    (h : Cleared L P stream s.log u target) : Authenticated L P stream accountName s := by
  obtain ⟨p, hk, -⟩ := h
  exact hk.authenticated

theorem inv_initial (stream : Bytes) : Inv L P stream (initial stream) :=
  ⟨rfl, fun _ _ => trivial⟩

theorem Inv.authenticated (h : Inv L P stream s) : Authenticated L P stream accountName s := by
  cases hp : s.pc <;> simp only [Inv, hp] at h
  case closed => exact h
  case serving => exact h.choose_spec.1.authenticated
  case commanding => exact h.choose_spec.1.authenticated
  all_goals first | exact h.2.authenticated | exact h.authenticated

/-- Protocol detection looks at the stream and takes nothing off it. -/
theorem inv_detected {inTLS : Bool} (hp : Plain L stream s.input)
    (hs : inTLS = false → s.input = stream) (hi : Innocent L P stream s.log) :
    Inv L P stream (detected s inTLS) := by
  unfold detected
  split
  · exact ⟨hp, hi⟩
  · exact ⟨hp, hi⟩
  · cases inTLS with
    | true => exact hi.authenticated
    | false => exact ⟨hs rfl, hi⟩
  · cases inTLS with
    | true => exact hi.authenticated
    | false => exact (hi.cons (plainly_reply _)).authenticated

theorem inv_served {req : Request} {u : Bytes} {dns : Answers} {routes : Option RouteCache}
    (hpc : s.pc = .serving req u) (h : Inv L P stream s) :
    Inv L P stream (served P s req u dns routes) := by
  simp only [Inv, hpc] at h
  obtain ⟨p, hk, plain, rest, hp, hreq, hauth⟩ := h
  have hreply : ∀ text, Known L P stream (.reply text :: s.log) u p :=
    fun text => hk.cons (warranted_plainly (plainly_reply text))
  unfold served
  split
  · split
    · exact (hreply _).authenticated
    · rename_i host port htarget
      exact ⟨p, hk, .basic hp hreq hauth htarget⟩
  · exact (hreply _).authenticated

theorem inv_authenticated {ok : Bool} (hpc : s.pc = .negotiating) (h : Inv L P stream s) :
    Inv L P stream (authenticated P s ok) := by
  simp only [Inv, hpc] at h
  obtain ⟨⟨methods, hp⟩, hi⟩ := h
  unfold authenticated
  split
  · exact hi.authenticated
  · rename_i u p rest hr
    obtain ⟨hs, -, -⟩ := readCredentials_some hr
    split
    · rename_i hok
      have hc := hi.checked hok
      split
      · refine ⟨p, ⟨by simp [advance], ?_⟩, methods, ?_⟩
        · exact ((hc.cons (plainly_reply _)).cons (plainly_tracked u)) u p
        · rw [hs, ← List.append_assoc] at hp
          exact hp
      · exact (hc.cons (plainly_reply _)).authenticated
    · rename_i hok
      exact ((hi.checked (by simpa using hok)).cons (plainly_reply _)).authenticated

theorem inv_commanded {u : Bytes} {dns : Answers} {routes : Option RouteCache}
    (hpc : s.pc = .commanding u) (h : Inv L P stream s) :
    Inv L P stream (commanded P s u dns routes) := by
  simp only [Inv, hpc] at h
  obtain ⟨p, hk, methods, hp⟩ := h
  unfold commanded
  split
  · exact hk.authenticated
  · rename_i req rest hreq
    split
    · rename_i hcmd
      exact ⟨p, hk, .connect hp hreq hcmd⟩
    · split
      · rename_i hcmd
        exact ⟨p, hk, .associate hp hreq hcmd⟩
      · exact (hk.cons (warranted_plainly (plainly_reply _))).authenticated

/-- One step of the connection, of its tunnel or of its relay. -/
theorem inv_step {e : Event} (h : Inv L P stream s) (hs : step L P s e = some t) :
    Inv L P stream t := by
  cases step_move hs with
  | detect hpc =>
    simp only [Inv, hpc] at h
    exact inv_detected (h.1 ▸ .clear) (fun _ => h.1) h.2
  | detectInTLS hpc =>
    simp only [Inv, hpc] at h
    exact inv_detected h.1 nofun h.2
  | detectTimeout hpc =>
    simp only [Inv, hpc] at h
    exact (h.2.cons (plainly_reply _)).authenticated
  | handshake hpc hplain =>
    simp only [Inv, hpc] at h
    rw [h.1] at hplain
    exact ⟨.inTLS hplain, h.2⟩
  | handshakeFailed hpc =>
    simp only [Inv, hpc] at h
    exact h.2.authenticated
  | unreadable hpc =>
    simp only [Inv, hpc] at h
    exact (h.2.cons (plainly_reply _)).authenticated
  | readRequest hpc hreq =>
    simp only [Inv, hpc] at h
    exact ⟨⟨s.input, h.1, hreq⟩, h.2⟩
  | unauthorized hpc =>
    simp only [Inv, hpc] at h
    exact (h.2.cons (plainly_reply _)).authenticated
  | @authorized req u p hpc hauth hok =>
    simp only [Inv, hpc] at h
    obtain ⟨⟨plain, hp, hreq⟩, hi⟩ := h
    refine ⟨p, ⟨by simp [advance], ?_⟩, plain, s.input, hp, hreq, hauth⟩
    exact ((hi.checked hok).cons (plainly_tracked u)) u p
  | refused hpc hauth hno =>
    simp only [Inv, hpc] at h
    exact ((h.2.checked hno).cons (plainly_reply _)).authenticated
  | serve hpc => exact inv_served hpc h
  | noGreeting hpc =>
    simp only [Inv, hpc] at h
    exact h.2.authenticated
  | @greet ok methods rest hpc hread =>
    simp only [Inv, hpc] at h
    have hi := h.2.cons (plainly_reply [0x05, 0x02])
    cases ok with
    | false => exact hi.authenticated
    | true => exact ⟨⟨methods, readGreeting_some hread ▸ h.1⟩, hi⟩
  | noMethod hpc =>
    simp only [Inv, hpc] at h
    exact (h.2.cons (plainly_reply _)).authenticated
  | authenticate hpc => exact inv_authenticated hpc h
  | command hpc => exact inv_commanded hpc h
  | @dial ok handler u address route hpc =>
    simp only [Inv, hpc] at h
    have hd : Cleared L P stream (.dialed address :: s.log) u (some address) := h.outward rfl
    cases ok with
    | false => exact hd.authenticated
    | true => exact hd
  | @openSession ok handler u address route hpc =>
    simp only [Inv, hpc] at h
    have hd : Cleared L P stream (.openedSession route address .tcp :: s.log) u
        (some address) := h.outward rfl
    cases ok with
    | false => exact hd.authenticated
    | true => exact hd
  | noLink hpc =>
    simp only [Inv, hpc] at h
    exact h.authenticated
  | @waitConnected ok handler u address hpc =>
    simp only [Inv, hpc] at h
    cases ok with
    | false => exact h.authenticated
    | true => exact h
  | @onConnected ok handler u address path hpc =>
    simp only [Inv, hpc] at h
    cases ok with
    | false => exact h.reply.authenticated
    | true => exact h.reply
  | @transfer direction n u address path hpc =>
    simp only [Inv, hpc] at h
    simp only [Inv, advance, hpc]
    exact h.traffic direction path n
  | @noSocket u hpc =>
    simp only [Inv, hpc] at h
    have hl : Cleared L P stream (.listenedUDP :: s.log) u none := h.outward rfl
    exact hl.authenticated
  | listen hpc =>
    simp only [Inv, hpc] at h
    exact h.outward rfl
  | noRelayIP hpc =>
    simp only [Inv, hpc] at h
    exact h.authenticated
  | @associate ok u port ip hpc =>
    simp only [Inv, hpc] at h
    cases ok with
    | false => exact h.reply.authenticated
    | true => exact h.reply
  | malformed => exact h
  | datagram hpc =>
    simp only [Inv, hpc] at h
    exact h
  | dialUDP hpc =>
    simp only [Inv, hpc] at h
    simp only [Inv, advance, hpc]
    exact h.outward rfl
  | @openUDP ok u packet route hpc =>
    simp only [Inv, hpc] at h
    have ho : Cleared L P stream (.openedSession route
        (joinHostPort packet.host (itoa packet.port)) .udp :: s.log) u none := h.outward rfl
    cases ok with
    | false => exact ho
    | true =>
      simp only [Inv, advance, hpc]
      exact ho
  | noUDPLink hpc =>
    simp only [Inv, hpc] at h
    exact h
  | @sendUDP n u packet route hpc =>
    simp only [Inv, hpc] at h
    simp only [Inv, advance, hpc]
    exact h.traffic _ _ n
  | forwarded hpc =>
    simp only [Inv, hpc] at h
    exact h
  | @answerUDP path n u hpc =>
    -- the reader of the answers runs beside the forwarding of a datagram
    obtain hpc | ⟨packet, route, hpc⟩ := hpc
    · simp only [Inv, hpc] at h
      simp only [Inv, advance, hpc]
      exact h.traffic _ path n
    · simp only [Inv, hpc] at h
      simp only [Inv, advance, hpc]
      exact h.traffic _ path n
  | hangUpTunnel hpc =>
    simp only [Inv, hpc] at h
    exact h.authenticated
  | hangUpRelay hpc =>
    simp only [Inv, hpc] at h
    exact h.authenticated

end

/-- In every run on every stream, with any user table, the one accepted pair of
credentials the stream carries precedes all that is done outward, and traffic is
accounted under its name, or under `unknown` when that name is empty. -/
theorem authenticated_before_use (L : Library) (P : Proxy) (stream : Bytes) (es : List Event) :
    Always (step L P) (Authenticated L P stream accountName) (initial stream) es := by
  refine always_of_invariant (fun _ _ _ hi _ hs => inv_step hi hs) (fun _ hi => hi.authenticated)
    (inv_initial stream) (@meets_of_forall _ _ _ (fun _ _ => True) (fun _ _ => trivial) _ es)

/-! ## A user without a name -/

/-- No name, the password `x`, and a CONNECT to 1.2.3.4:80. -/
def namelessStream : Bytes :=
  [0x05, 0x01, 0x02, 0x01, 0x00, 0x01, 0x78, 0x05, 0x01, 0x00, 0x01, 1, 2, 3, 4, 0x00, 0x50]

/-- A proxy whose one user has an empty name. -/
def namelessProxy : Proxy where
  routeDirect := ascii "direct"
  udpRelayIP := none
  checkCredentials := fun u p => u = [] ∧ p = [0x78]

def namelessRun : List Event :=
  [.detect, .greet true, .authenticate true, .command (fun _ => none) none, .dial true,
   .onConnected true, .transfer .clientToTarget 1]

def namelessLog : List Action :=
  [.traffic (ascii "unknown") .clientToTarget .direct 1, .reply socks5Success,
   .dialed (ascii "1.2.3.4:80"), .tracked [], .reply [0x01, 0x00], .checked [] [0x78] true,
   .reply [0x05, 0x02]]

theorem nameless_traffic : ¬∀ (L : Library) (P : Proxy) (stream : Bytes) (es : List Event),
    Always (step L P) (Authenticated L P stream id) (initial stream) es := by
  intro h
  have hrun : (run (step noLibrary namelessProxy) (initial namelessStream) namelessRun).map
      State.log = some namelessLog := by decide +kernel
  obtain ⟨s, hs, hlog⟩ := Option.map_eq_some_iff.mp hrun
  obtain ⟨u, p, hp⟩ := h _ _ _ _ namelessRun [] s (List.append_nil _).symm hs
  rw [hlog] at hp
  obtain ⟨hc, -, hu⟩ := hp.1.traffic _ _ _ _ rfl
  have hu : ascii "unknown" = u := hu
  simp only [List.mem_cons, reduceCtorEq, Action.checked.injEq, false_or, List.not_mem_nil,
    or_false] at hc
  rw [hc.1] at hu
  exact absurd hu (by decide)

end SplitProxy.HandleConn
