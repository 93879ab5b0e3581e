import SplitProxy.JSONRead
import SplitProxy.MessageSize
import SplitProxy.WorkerProcess

/-!
# The target the worker dials

A target goes as raw bytes from the client to the proxy, as a JSON string from the
proxy to the broker, and as raw bytes again to the worker. JSON strings are UTF-8, so
the way is the identity on the texts that are.
-/
namespace SplitProxy.RoutedTarget

open Runs GoText NetIP Routing HTTPConnect Socks5 HandleConn
open MessageSize (Id Random newSessionID modeText marshal)

/-! ## The broker -/

/-- A request as the broker reads it. -/
structure BrokerRequest where
  id : Bytes
  route : Bytes
  target : Bytes
  mode : Bytes
  deriving DecidableEq, Repr

/-- `json.Unmarshal` into a request. -/
def unmarshal (msg : Bytes) : Option BrokerRequest :=
  (readObject msg).map fun members =>
    ⟨member members (ascii "id"), member members (ascii "route"),
      member members (ascii "target"), member members (ascii "mode")⟩

/-- What `openProxySession` finds: the two answers of `isShuttingDown`, the sessions there
are, and the worker of each group. -/
structure Broker (W : Type) where
  shuttingDown : Bool
  shuttingDownLater : Bool
  sessions : Bytes → Bool
  getWorker : Bytes → Option W

/-- What becomes of a request; `sent` is the call of `sendToWorker`. -/
inductive Outcome (W : Type) where
  | shuttingDown
  | invalidMode
  | invalidID
  | duplicate
  | noWorkers (group : Bytes)
  | sent (group : Bytes) (w : W) (msg : Bytes)

/-- `newID` is what `uuid.New` gives. -/
def openProxySession {W : Type} (B : Broker W) (newID : Bytes) (req : BrokerRequest) : Outcome W :=
  if B.shuttingDown then .shuttingDown
  else
    let mode := if req.mode = [] then ascii "tcp" else req.mode
    if mode ≠ ascii "tcp" ∧ mode ≠ ascii "udp" then .invalidMode
    else
      let id := if req.id = [] then newID else req.id
      if id.length ≠ 36 then .invalidID
      else if B.sessions id then .duplicate
      else
        match B.getWorker req.route with
        | none => .noWorkers req.route
        | some w =>
          if B.shuttingDownLater then .shuttingDown
          else
            .sent req.route w
              (packet id (if mode = ascii "udp" then .udpConnect else .connect) req.target)

/-! ## From the proxy to the worker -/

/-- The broker is running and has not got the id yet. -/
structure Broker.Accepts {W : Type} (B : Broker W) (id : Bytes) : Prop where
  running : B.shuttingDown = false
  stillRunning : B.shuttingDownLater = false
  fresh : B.sessions id = false

/-- The request for a session selects the group of the route, and the frame for its
worker holds the id, the command of the mode and the address. -/
def DialsRouted (random : Random) (route : Route) (mode : Mode) (address : Bytes) : Prop :=
  ∃ req msg, unmarshal (marshal ⟨newSessionID random, route, address, mode⟩) = some req ∧
    WorkerProcess.parseFrame msg = some ⟨newSessionID random, mode.connectCommand, address⟩ ∧
      ∀ (W : Type) (B : Broker W) (newID : Bytes), B.Accepts (newSessionID random).val →
        openProxySession B newID req =
          match B.getWorker route with
          | none => .noWorkers route
          | some w => .sent route w msg

theorem marshal_eq (r : MessageSize.BrokerRequest) : marshal r =
    writeObject [(ascii "id", r.id.val), (ascii "route", r.route), (ascii "target", r.target),
      (ascii "mode", modeText r.mode)] := by
  have h₁ : ascii "\x7b\"id\":" = 0x7B :: (jsonString (ascii "id") ++ [0x3A]) := by decide +kernel
  have h₂ : ascii ",\"route\":" = 0x2C :: (jsonString (ascii "route") ++ [0x3A]) := by decide +kernel
  have h₃ : ascii ",\"target\":" = 0x2C :: (jsonString (ascii "target") ++ [0x3A]) := by
    decide +kernel
  have h₄ : ascii ",\"mode\":" = 0x2C :: (jsonString (ascii "mode") ++ [0x3A]) := by decide +kernel
  have h₅ : ascii "\x7d" = [0x7D] := by decide
  simp only [marshal, h₁, h₂, h₃, h₄, h₅, writeObject, writeMembers, List.append_assoc,
    List.cons_append, List.nil_append]

/-- Plain text is in UTF-8. -/
theorem validString_of_lt {s : Bytes} (h : ∀ b ∈ s, b.toNat < 0x80) : validString s = true := by
  induction s with
  | nil => rfl
  | cons b s ih =>
    have hb := h b List.mem_cons_self
    rw [validString_cons, decodeRune_of_lt hb, List.drop_zero,
      ih fun c hc => h c (List.mem_cons_of_mem b hc)]
    simp [hb]

theorem validString_newSessionID (random : Random) :
    validString (newSessionID random).val = true := by
  refine validString_of_lt fun b hb => ?_
  have hsafe := MessageSize.htmlSafe_newSessionID random b hb
  simp only [htmlSafe, decide_eq_true_eq] at hsafe
  exact hsafe.2.1

/-- What the broker reads of a request. -/
theorem unmarshal_marshal (random : Random) (route : Route) (mode : Mode) (address : Bytes) :
    unmarshal (marshal ⟨newSessionID random, route, address, mode⟩) =
      some ⟨(newSessionID random).val, validUTF8 route, validUTF8 address, modeText mode⟩ := by
  have hid := (validUTF8_eq_iff _).mpr (validString_newSessionID random)
  have hmode : validUTF8 (modeText mode) = modeText mode := by cases mode <;> decide +kernel
  have hkeys : validUTF8 (ascii "id") = ascii "id" ∧ validUTF8 (ascii "route") = ascii "route" ∧
      validUTF8 (ascii "target") = ascii "target" ∧ validUTF8 (ascii "mode") = ascii "mode" := by
    decide +kernel
  have hne : ascii "id" ≠ ascii "route" ∧ ascii "id" ≠ ascii "target" ∧ ascii "id" ≠ ascii "mode" ∧
      ascii "route" ≠ ascii "target" ∧ ascii "route" ≠ ascii "mode" ∧
        ascii "target" ≠ ascii "mode" := by decide +kernel
  obtain ⟨k₁, k₂, k₃, k₄⟩ := hkeys
  obtain ⟨n₁, n₂, n₃, n₄, n₅, n₆⟩ := hne
  rw [unmarshal, marshal_eq, readObject_writeObject]
  simp only [List.map_cons, List.map_nil, validMember, k₁, k₂, k₃, k₄, hid, hmode, Option.map_some,
    member, List.foldl_cons, List.foldl_nil, n₁, n₂, n₃, n₄, n₅, n₆, n₁.symm, n₂.symm, n₃.symm,
    n₄.symm, n₅.symm, n₆.symm, ↓reduceIte, Option.getD_some]

theorem parseFrame_packet (id : Id) {cmd : Command} (hcmd : Command.ofByte cmd.code = cmd)
    (data : Bytes) :
    WorkerProcess.parseFrame (packet id.val cmd data) = some ⟨id, cmd, data⟩ := by
  rw [packet_eq id.property]
  have hlen : 36 < (id.val ++ cmd.code :: data).length := by
    rw [List.length_append, id.property, List.length_cons]
    omega
  have htake : (id.val ++ cmd.code :: data).take 36 = id.val := List.take_left' id.property
  have hget : (id.val ++ cmd.code :: data)[36] = cmd.code := by
    rw [List.getElem_append_right (Nat.le_of_eq id.property)]
    simp [id.property]
  have hdrop : (id.val ++ cmd.code :: data).drop 37 = data := by
    rw [List.append_cons]
    exact List.drop_left' (by rw [List.length_append, id.property]; rfl)
  simp only [WorkerProcess.parseFrame, dif_pos hlen, htake, hget, hcmd, hdrop]

/-- What the broker makes of a request that it accepts. -/
theorem openProxySession_accepts {W : Type} {B : Broker W} {random : Random}
    (hB : B.Accepts (newSessionID random).val) (newID group target : Bytes) (mode : Mode) :
    openProxySession B newID ⟨(newSessionID random).val, group, target, modeText mode⟩ =
      match B.getWorker group with
      | none => .noWorkers group
      | some w => .sent group w (packet (newSessionID random).val mode.connectCommand target) := by
  have hid : (newSessionID random).val ≠ [] := by
    intro h
    have hlen := (newSessionID random).property
    rw [h] at hlen
    cases hlen
  have htcp : ascii "tcp" ≠ [] ∧ ascii "udp" ≠ [] ∧ ascii "tcp" ≠ ascii "udp" := by decide +kernel
  cases mode with
  | tcp =>
    simp only [openProxySession, hB.running, hB.stillRunning, modeText, htcp.1, htcp.2.2, hid,
      (newSessionID random).property, hB.fresh, ne_eq, not_true_eq_false, false_and, ↓reduceIte,
      Bool.false_eq_true]
    rfl
  | udp =>
    simp only [openProxySession, hB.running, hB.stillRunning, modeText, htcp.2.1, htcp.2.2.symm, hid,
      (newSessionID random).property, hB.fresh, ne_eq, not_true_eq_false, and_false, ↓reduceIte,
      Bool.false_eq_true]
    rfl

/-- A session is opened to what was routed exactly if both texts are in UTF-8. -/
theorem dialsRouted_iff (random : Random) (route : Route) (mode : Mode) (address : Bytes) :
    DialsRouted random route mode address ↔
      validString route = true ∧ validString address = true := by
  have hcmd : Command.ofByte mode.connectCommand.code = mode.connectCommand := by
    cases mode <;> rfl
  rw [← validUTF8_eq_iff, ← validUTF8_eq_iff]
  constructor
  · rintro ⟨req, msg, hreq, hmsg, hopen⟩
    rw [unmarshal_marshal] at hreq
    cases hreq
    -- a broker with workers in every group
    have hB : (⟨false, false, fun _ => false, fun _ => some ()⟩ : Broker Unit).Accepts
        (newSessionID random).val := ⟨rfl, rfl, rfl⟩
    have hsent := hopen Unit _ [] hB
    rw [openProxySession_accepts hB] at hsent
    injection hsent with hroute hw hpacket
    rw [← hpacket, parseFrame_packet _ hcmd] at hmsg
    have hframe := Option.some.inj hmsg
    injection hframe with h₁ h₂ haddress
    exact ⟨hroute, haddress⟩
  · rintro ⟨hroute, haddress⟩
    refine ⟨_, _, unmarshal_marshal random route mode address,
      parseFrame_packet _ hcmd address, fun W B newID hB => ?_⟩
    rw [hroute, haddress]
    exact openProxySession_accepts hB newID route address mode

/-! ## Addresses -/

theorem validFrom_append {a : UInt8} (ha : isCont a = false) (x y : Bytes) (k : Nat)
    (hk : k ≤ x.length) :
    validFrom k (x ++ a :: y) = (validFrom k x && validString (a :: y)) := by
  induction x generalizing k with
  | nil =>
    rw [Nat.le_zero.mp hk]
    rfl
  | cons b x ih =>
    rw [List.cons_append]
    cases k with
    | zero =>
      rw [validFrom, validFrom, decodeRune_append ha, ih _ (decodeRune_le b x), Bool.and_assoc]
    | succ k =>
      rw [validFrom, validFrom]
      exact ih k (Nat.le_of_succ_le_succ hk)

theorem validString_ascii_cons {a : UInt8} (ha : a.toNat < 0x80) (s : Bytes) :
    validString (a :: s) = validString s := by
  rw [validString_cons, decodeRune_of_lt ha, List.drop_zero]
  simp [ha]

theorem validString_append_cons {a : UInt8} (ha : a.toNat < 0x80) (x y : Bytes) :
    validString (x ++ a :: y) = (validString x && validString y) := by
  have hcont : isCont a = false := by
    simp only [isCont, decide_eq_false_iff_not]
    omega
  have h := validFrom_append hcont x y 0 (Nat.zero_le _)
  rw [validString_ascii_cons ha] at h
  exact h

/-- What `net.JoinHostPort` adds to a host is plain text. -/
theorem validString_joinHostPort (host : Bytes) {port : Bytes} (hport : ∀ b ∈ port, b.toNat < 0x80) :
    validString (joinHostPort host port) = validString host := by
  have hp := validString_of_lt hport
  have hcolon : colon.toNat < 0x80 := by decide
  have hclose : closeBracket.toNat < 0x80 := by decide
  have hopen : openBracket.toNat < 0x80 := by decide
  rw [joinHostPort]
  by_cases hc : colon ∈ host
  · rw [if_pos hc, List.cons_append, validString_ascii_cons hopen, validString_append_cons hclose,
      validString_ascii_cons hcolon, hp, Bool.and_true]
  · rw [if_neg hc, validString_append_cons hcolon, hp, Bool.and_true]

theorem decimal_ascii {s : Bytes} {n : Nat} (h : decimal s = some n) : ∀ b ∈ s, b.toNat < 0x80 := by
  intro b hb
  have hd := (decimal_some h).2 b hb
  simp only [isDigit, decide_eq_true_eq] at hd
  omega

theorem atoi_ascii {s : Bytes} {n : Int} (h : atoi s = some n) : ∀ b ∈ s, b.toNat < 0x80 := by
  cases s with
  | nil => cases h
  | cons c rest =>
    simp only [atoi] at h
    by_cases hminus : c = 0x2D
    · rw [if_pos hminus] at h
      obtain ⟨m, hm, -⟩ := Option.bind_eq_some_iff.mp h
      intro b hb
      rcases List.mem_cons.mp hb with rfl | hb
      · rw [hminus]
        decide
      · exact decimal_ascii hm b hb
    · rw [if_neg hminus] at h
      obtain ⟨m, hm, -⟩ := Option.bind_eq_some_iff.mp h
      by_cases hplus : c = 0x2B
      · rw [if_pos hplus] at hm
        intro b hb
        rcases List.mem_cons.mp hb with rfl | hb
        · rw [hplus]
          decide
        · exact decimal_ascii hm b hb
      · rw [if_neg hplus] at hm
        exact decimal_ascii hm

theorem parseConnectTarget_port {req : Request} {host port : Bytes}
    (h : parseConnectTarget req = some (host, port)) : ∃ n, atoi port = some n := by
  simp only [parseConnectTarget] at h
  generalize hu : (if req.requestURI = [] then req.host else req.requestURI) = target at h
  split at h
  · cases h
  · split at h
    · cases h
    · split at h
      · cases h
      · split at h
        · cases h
        · rename_i n hn
          split at h
          · cases h
          · cases h
            exact ⟨n, hn⟩

/-! ## What a connection opens sessions for -/

/-- The answers of the resolver and the cache that a step resolves a route with. -/
def resolves : Event → Option (Answers × Option RouteCache)
  | .serve dns routes | .command dns routes | .datagram _ dns routes => some (dns, routes)
  | _ => none

/-- What the steps of a run resolve routes with. -/
def ResolvesIn (es : List Event) (dns : Answers) (routes : Option RouteCache) : Prop :=
  ∃ e ∈ es, resolves e = some (dns, routes)

/-- The address of a host on whose name `ResolveRoute` has decided for the route, with
answers and a cache that are in `A`. -/
def Routed (P : Proxy) (A : Answers → Option RouteCache → Prop) (route : Route)
    (address : Bytes) : Prop :=
  ∃ host port dns routes, A dns routes ∧ address = joinHostPort host port ∧
    (∀ b ∈ port, b.toNat < 0x80) ∧ route = resolveRoute P.routeDirect dns routes host

def ActionRouted (P : Proxy) (A : Answers → Option RouteCache → Prop) : Action → Prop
  | .openedSession route address _ => Routed P A route address
  | _ => True

def PcRouted (P : Proxy) (A : Answers → Option RouteCache → Prop) : Pc → Prop
  | .connecting _ _ address route => Routed P A route address
  | .forwarding _ packet route => Routed P A route (joinHostPort packet.host (itoa packet.port))
  | _ => True

def Inv (P : Proxy) (A : Answers → Option RouteCache → Prop) (s : State) : Prop :=
  PcRouted P A s.pc ∧ ∀ a ∈ s.log, ActionRouted P A a

section

variable {L : Library} {P : Proxy} {A : Answers → Option RouteCache → Prop} {s t : State}

/-- Actions that open no session. -/
theorem Inv.quiet {actions : List Action} (h : Inv P A s) (hlog : t.log = actions ++ s.log)
    (hpc : PcRouted P A t.pc)
    (ha : ∀ a ∈ actions, ∀ route address mode, a ≠ .openedSession route address mode) :
    Inv P A t := by
  refine ⟨hpc, fun a hmem => ?_⟩
  rw [hlog] at hmem
  rcases List.mem_append.mp hmem with hmem | hmem
  · cases a with
    | openedSession route address mode => exact absurd rfl (ha _ hmem route address mode)
    | _ => trivial
  · exact h.2 a hmem

/-- The step that opens a session. -/
theorem Inv.opened {route : Route} {address : Bytes} {mode : Mode} (h : Inv P A s)
    (hlog : t.log = .openedSession route address mode :: s.log) (hpc : PcRouted P A t.pc)
    (hr : Routed P A route address) : Inv P A t := by
  refine ⟨hpc, fun a hmem => ?_⟩
  rw [hlog] at hmem
  rcases List.mem_cons.mp hmem with rfl | hmem
  · exact hr
  · exact h.2 a hmem

theorem recordTraffic_quiet (username : Bytes) (direction : Direction) (path : Path) (n : Nat) :
    ∀ a ∈ recordTraffic username direction path n, ∀ route address mode,
      a ≠ .openedSession route address mode := by
  intro a ha route address mode he
  subst he
  unfold recordTraffic at ha
  split at ha
  · cases ha
  · cases List.mem_singleton.mp ha

theorem inv_served {req : Request} {u : Bytes} {dns : Answers} {routes : Option RouteCache}
    (h : Inv P A s) (hA : A dns routes) : Inv P A (served P s req u dns routes) := by
  unfold served
  split
  · split
    · exact h.quiet rfl trivial (by simp)
    · rename_i host port htarget
      obtain ⟨n, hn⟩ := parseConnectTarget_port htarget
      exact h.quiet rfl ⟨host, port, dns, routes, hA, rfl, atoi_ascii hn, rfl⟩ (by simp)
  · exact h.quiet rfl trivial (by simp)

theorem inv_commanded {u : Bytes} {dns : Answers} {routes : Option RouteCache} (h : Inv P A s)
    (hA : A dns routes) : Inv P A (commanded P s u dns routes) := by
  unfold commanded
  split
  · exact h.quiet rfl trivial (by simp)
  · rename_i req rest hreq
    split
    · exact h.quiet rfl
        ⟨req.host, itoa req.port, dns, routes, hA, rfl, decimal_ascii (decimal_itoa _), rfl⟩
        (by simp)
    · split
      · exact h.quiet rfl trivial (by simp)
      · exact h.quiet rfl trivial (by simp)

theorem inv_detected (h : Inv P A s) (inTLS : Bool) : Inv P A (detected s inTLS) := by
  unfold detected
  split
  · exact h.quiet rfl trivial (by simp)
  · exact h.quiet rfl trivial (by simp)
  · cases inTLS <;> exact h.quiet rfl trivial (by simp)
  · cases inTLS <;> exact h.quiet rfl trivial (by simp)

theorem inv_step {e : Event} (h : Inv P A s)
    (hA : ∀ dns routes, resolves e = some (dns, routes) → A dns routes)
    (hs : step L P s e = some t) : Inv P A t := by
  cases step_move hs with
  | detect => exact inv_detected h false
  | detectInTLS => exact inv_detected h true
  | serve => exact inv_served h (hA _ _ rfl)
  | authenticate =>
    unfold authenticated
    repeat' split
    all_goals exact h.quiet rfl trivial (by simp)
  | command => exact inv_commanded h (hA _ _ rfl)
  | @openSession ok handler username address route hpc =>
    have hr : Routed P A route address := by
      have := h.1
      rwa [hpc] at this
    refine h.opened rfl ?_ hr
    cases ok <;> trivial
  | @openUDP ok username packet route hpc =>
    have hr : Routed P A route (joinHostPort packet.host (itoa packet.port)) := by
      have := h.1
      rwa [hpc] at this
    refine h.opened rfl ?_ hr
    cases ok with
    | false => trivial
    | true => exact h.1
  | malformed => exact h
  | @datagram data dns routes username packet =>
    exact h.quiet rfl
      ⟨packet.host, itoa packet.port, dns, routes, hA dns routes rfl, rfl,
        decimal_ascii (decimal_itoa _), rfl⟩
      (by simp)
  | transfer | sendUDP | answerUDP => exact h.quiet rfl h.1 (recordTraffic_quiet _ _ _ _)
  | dialUDP => exact h.quiet rfl h.1 (by simp)
  | @greet ok | @dial ok | @waitConnected ok | @onConnected ok | @associate ok =>
    cases ok <;> exact h.quiet rfl trivial (by simp)
  | _ => exact h.quiet rfl trivial (by simp)

end

theorem routed_run {L : Library} {P : Proxy} {stream : Bytes} {es : List Event} {s : State}
    (h : run (step L P) (initial stream) es = some s) : Inv P (ResolvesIn es) s :=
  run_invariant (C := fun _ e => e ∈ es)
    (fun _ e _ hs he hst => inv_step hs (fun _ _ hres => ⟨e, he, hres⟩) hst)
    (show Inv P (ResolvesIn es) (initial stream) from ⟨trivial, fun a ha => by cases ha⟩)
    (meets_of_mem fun _ he _ => he) h

/-- Every session a connection opens is for the host on which one of its steps decided the
route, and is dialled as routed exactly if the name of the route and the host are in
UTF-8. -/
theorem opened_dials_routed (L : Library) (P : Proxy) (stream : Bytes) (es : List Event) (s : State)
    (route : Route) (address : Bytes) (mode : Mode)
    (h : run (step L P) (initial stream) es = some s)
    (hopened : .openedSession route address mode ∈ s.log) :
    ∃ host port dns routes, ResolvesIn es dns routes ∧ address = joinHostPort host port ∧
      route = resolveRoute P.routeDirect dns routes host ∧
        ∀ random, DialsRouted random route mode address ↔
          validString route = true ∧ validString host = true := by
  obtain ⟨host, port, dns, routes, hasked, rfl, hport, hroute⟩ := (routed_run h).2 _ hopened
  refine ⟨host, port, dns, routes, hasked, rfl, hroute, fun random => ?_⟩
  rw [dialsRouted_iff, validString_joinHostPort host hport]

def zeros : Random := ⟨List.replicate 16 0, rfl⟩

/-- A proxy that accepts everybody and sends everything to the workers of one group. -/
def openProxy : Proxy := ⟨ascii "direct", none, fun _ _ => true⟩

def oneGroup : RouteCache := ⟨fun _ => none, newDomainTrie, .empty, ascii "eu"⟩

/-- SOCKS5, with a user and a password, and a CONNECT to port 80 of a domain. -/
def connectTo (domain : Bytes) : Bytes :=
  greeting [0x02] ++ subnegotiation (ascii "u") (ascii "p") ++
    [0x05, 0x01, 0x00, 0x03] ++ lengthPrefixed domain ++ [0x00, 0x50]

def connectRun : List Event :=
  [.detect, .greet true, .authenticate true, .command (fun _ => none) (some oneGroup),
    .openSession true true]

theorem opened_dials_example : ∃ s,
    run (step noLibrary openProxy) (initial (connectTo (ascii "a.example"))) connectRun = some s ∧
      .openedSession (ascii "eu") (ascii "a.example:80") .tcp ∈ s.log ∧
        ∃ host port dns routes, ResolvesIn connectRun dns routes ∧
          ascii "a.example:80" = joinHostPort host port ∧
          ascii "eu" = resolveRoute openProxy.routeDirect dns routes host ∧
            ∀ random, DialsRouted random (ascii "eu") .tcp (ascii "a.example:80") ↔
              validString (ascii "eu") = true ∧ validString host = true := by
  have hrun : (run (step noLibrary openProxy) (initial (connectTo (ascii "a.example")))
      connectRun).map (fun s => s.log.head?) =
        some (some (.openedSession (ascii "eu") (ascii "a.example:80") .tcp)) := by decide +kernel
  obtain ⟨s, hs, hlog⟩ := Option.map_eq_some_iff.mp hrun
  have hopened := List.mem_of_head? hlog
  exact ⟨s, hs, hopened, opened_dials_routed _ _ _ _ s _ _ _ hs hopened⟩

/-- A byte that belongs to no rune is dialled as three others. -/
theorem replaced_byte : ∃ s,
    run (step noLibrary openProxy) (initial (connectTo [0x61, 0xFF])) connectRun = some s ∧
      .openedSession (ascii "eu") (0x61 :: 0xFF :: ascii ":80") .tcp ∈ s.log ∧
        ¬DialsRouted zeros (ascii "eu") .tcp (0x61 :: 0xFF :: ascii ":80") := by
  have hrun : (run (step noLibrary openProxy) (initial (connectTo [0x61, 0xFF]))
      connectRun).map (fun s => s.log.head?) =
        some (some (.openedSession (ascii "eu") (0x61 :: 0xFF :: ascii ":80") .tcp)) := by
    decide +kernel
  obtain ⟨s, hs, hlog⟩ := Option.map_eq_some_iff.mp hrun
  refine ⟨s, hs, List.mem_of_head? hlog, fun h => ?_⟩
  have hvalid := ((dialsRouted_iff zeros _ _ _).mp h).2
  exact absurd hvalid (by decide +kernel)

end SplitProxy.RoutedTarget
