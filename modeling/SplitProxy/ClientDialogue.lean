import SplitProxy.AuthBeforeUse

/-!
# The conversation with a client

A protocol for what the proxy says to a client and does on its behalf, from
silence to a tunnel or a relay, and the proof that every run of `handleConn`
keeps to it.
-/
namespace SplitProxy.HandleConn

open Runs GoText NetIP Routing HTTPConnect Socks5

/-! ## The protocol -/

/-- How far the proxy is with a client. -/
inductive Talk where
  | silent
  | greeted
  | denied (handler : Handler)
  | vouched (handler : Handler) (username : Bytes)
  | admitted (username : Bytes)
  | serving (handler : Handler) (username : Bytes)
  | reaching (handler : Handler) (username : Bytes) (path : Path)
  | tunnel (username : Bytes) (path : Path)
  | bound (username : Bytes)
  | relay (username : Bytes)
  | over
  deriving DecidableEq, Repr

/-- Where a handler checks credentials. -/
def Handler.asks : Handler → Talk
  | .http => .silent
  | .socks5 => .greeted

/-- The answer to credentials that are not accepted. -/
def Handler.denial : Handler → Bytes
  | .http => proxyAuthRequired
  | .socks5 => [0x01, 0x01]

/-- The answers to a request that is not served. -/
def Handler.refusals : Handler → List Bytes
  | .http => [proxyError badRequest, proxyError notImplemented]
  | .socks5 => [commandNotSupported]

/-- The proxy does one thing. -/
inductive Says (P : Proxy) : Talk → Action → Talk → Prop where
  | method : Says P .silent (.reply [0x05, 0x02]) .greeted
  | unreadable : Says P .silent (.reply (proxyError badRequest)) .over
  | noCredentials : Says P .silent (.reply proxyAuthRequired) .over
  | noMethod : Says P .silent (.reply [0x05, 0xff]) .over
  | deny (h : Handler) {u p : Bytes} : Says P h.asks (.checked u p false) (.denied h)
  | denial (h : Handler) : Says P (.denied h) (.reply h.denial) .over
  | vouch (h : Handler) {u p : Bytes} : Says P h.asks (.checked u p true) (.vouched h u)
  | track {u : Bytes} : Says P (.vouched .http u) (.tracked u) (.serving .http u)
  | welcome {u : Bytes} : Says P (.vouched .socks5 u) (.reply [0x01, 0x00]) (.admitted u)
  | trackAdmitted {u : Bytes} : Says P (.admitted u) (.tracked u) (.serving .socks5 u)
  | refuse {h : Handler} {u text : Bytes} (ht : text ∈ h.refusals) :
      Says P (.serving h u) (.reply text) .over
  | dial {h : Handler} {u address : Bytes} :
      Says P (.serving h u) (.dialed address) (.reaching h u .direct)
  | openSession {h : Handler} {u address : Bytes} {route : Route} (hr : route ≠ P.routeDirect) :
      Says P (.serving h u) (.openedSession route address .tcp) (.reaching h u .worker)
  | success {h : Handler} {u : Bytes} {path : Path} :
      Says P (.reaching h u path) (.reply h.success) (.tunnel u path)
  | transfer {u : Bytes} {path : Path} {d : Direction} {n : Nat} (hn : 0 < n) :
      Says P (.tunnel u path) (.traffic (accountName u) d path n) (.tunnel u path)
  | listen {u : Bytes} : Says P (.serving .socks5 u) .listenedUDP (.bound u)
  | associate {u : Bytes} {ip : BitVec 32} {port : Nat} (hip : P.udpRelayIP = some ip) :
      Says P (.bound u) (.reply (udpAssociateSuccess ip port)) (.relay u)
  | dialUDP {u address : Bytes} : Says P (.relay u) (.dialedUDP address) (.relay u)
  | openUDP {u address : Bytes} {route : Route} (hr : route ≠ P.routeDirect) :
      Says P (.relay u) (.openedSession route address .udp) (.relay u)
  | transferUDP {u : Bytes} {path : Path} {d : Direction} {n : Nat} (hn : 0 < n) :
      Says P (.relay u) (.traffic (accountName u) d path n) (.relay u)

/-- The proxy goes from one place to another while it does these things, the
latest first. -/
inductive Goes (P : Proxy) (q : Talk) : List Action → Talk → Prop where
  | nil : Goes P q [] q
  | cons {a : Action} {l : List Action} {r r' : Talk} (h : Goes P q l r) (ha : Says P r a r') :
      Goes P q (a :: l) r'

variable {L : Library} {P : Proxy} {stream : Bytes} {s t : State}

theorem Goes.one {q r : Talk} {a : Action} (h : Says P q a r) : Goes P q [a] r := .cons .nil h

theorem Goes.append {q r r' : Talk} {l m : List Action} (h : Goes P q l r) (h' : Goes P r m r') :
    Goes P q (m ++ l) r' := by
  induction h' with
  | nil => exact h
  | cons _ ha ih => exact .cons ih ha

/-! ## What a conversation cannot contain -/

/-- A step towards a target of the client. -/
def Action.reaches : Action → Bool
  | .dialed _ | .openedSession _ _ .tcp | .listenedUDP => true
  | _ => false

/-- The proxy has taken one. -/
def Talk.reached : Talk → Nat
  | .reaching _ _ _ | .tunnel _ _ | .bound _ | .relay _ => 1
  | _ => 0

theorem Says.reached {q r : Talk} {a : Action} (h : Says P q a r) :
    r.reached = q.reached + if a.reaches then 1 else 0 := by
  cases h with
  | deny h | vouch h => cases h <;> rfl
  | method | unreadable | noCredentials | noMethod | denial | track | welcome | trackAdmitted
  | refuse | dial | openSession | success | transfer | listen | associate | dialUDP | openUDP
  | transferUDP => rfl

/-- A conversation has one such step at most. -/
theorem Goes.countP_reaches {q : Talk} {l : List Action} (h : Goes P .silent l q) :
    l.countP Action.reaches = q.reached := by
  induction h with
  | nil => rfl
  | cons _ ha ih => rw [List.countP_cons, ih, ha.reached]

/-! ## What a report of success rests on -/

/-- The client has been told that its target is reached, or that the relay listens. -/
def Talk.reports : Talk → Bool
  | .tunnel _ _ | .relay _ => true
  | _ => false

theorem Says.reports {q r : Talk} {a : Action} (h : Says P q a r) (hq : q.reports = true) :
    r.reports = true := by
  cases h with
  | transfer | dialUDP | openUDP | transferUDP => rfl
  | deny h | vouch h => cases h <;> cases hq
  | method | unreadable | noCredentials | noMethod | denial | track | welcome | trackAdmitted
  | refuse | dial | openSession | success | listen | associate => cases hq

/-- An answer to the client. -/
def Action.answers : Action → Bool
  | .reply _ => true
  | _ => false

/-- Whatever is said to the client after a step towards its target reports success. -/
theorem Says.reports_answer {q r : Talk} {a : Action} (h : Says P q a r) (hq : 0 < q.reached)
    (ha : a.answers = true) : r.reports = true := by
  cases h with
  | success | associate => rfl
  | deny h | vouch h => cases ha
  | method | unreadable | noCredentials | noMethod | denial | track | welcome | trackAdmitted
  | refuse => cases hq
  | dial | openSession | transfer | listen | dialUDP | openUDP | transferUDP => cases ha

theorem Goes.split {q r : Talk} {l m : List Action} (h : Goes P q (l ++ m) r) :
    ∃ r', Goes P q m r' ∧ Goes P r' l r := by
  induction l generalizing r with
  | nil => exact ⟨r, h, .nil⟩
  | cons a l ih =>
    cases h with
    | cons h ha =>
      obtain ⟨r', hm, hl⟩ := ih h
      exact ⟨r', hm, .cons hl ha⟩

theorem Goes.reports {q : Talk} {l m : List Action} {text : Bytes}
    (h : Goes P .silent (l ++ .reply text :: m) q) (hm : 0 < m.countP Action.reaches) :
    q.reports = true := by
  obtain ⟨r, hr, hl⟩ := h.split
  cases hr with
  | @cons _ _ r' _ hgo hsays =>
    rw [hgo.countP_reaches] at hm
    have hreports := hsays.reports_answer hm rfl
    clear hm hgo h
    induction hl with
    | nil => exact hreports
    | cons _ ha ih => exact ha.reports ih

/-- A target could not be reached. -/
def Event.fails : Event → Bool
  | .dial ok | .waitConnected ok => !ok
  | .openSession link ok => !(link && ok)
  | .listen port => port.isNone
  | _ => false

/-- The target has been reached this way. -/
def ReachedBy (es : List Event) : Path → Prop
  | .direct => .dial true ∈ es
  | .worker => .openSession true true ∈ es ∧ .waitConnected true ∈ es

/-- What has succeeded before success was reported. -/
def Backed (es : List Event) : Talk → Prop
  | .tunnel _ path => ReachedBy es path
  | .relay _ => ∃ port, .listen (some port) ∈ es
  | _ => True

/-! ## Every run keeps to it -/

/-- The place in the conversation that a handler is at. -/
def talkOf : Pc → Option Talk
  | .accepted | .handshaking | .secured | .http | .authorizing _ | .socks5 => some .silent
  | .negotiating => some .greeted
  | .serving _ u => some (.serving .http u)
  | .commanding u | .associating u => some (.serving .socks5 u)
  | .connecting h u _ _ => some (.serving h u)
  | .waiting h u _ => some (.reaching h u .worker)
  | .connected h u _ path => some (.reaching h u path)
  | .tunnel u _ path => some (.tunnel u path)
  | .listening u _ => some (.bound u)
  | .relay u | .forwarding u _ _ => some (.relay u)
  | .closed => none

/-- What has succeeded for the handler to be where it is. -/
def Supported (es : List Event) : Pc → Prop
  | .waiting _ _ _ => .openSession true true ∈ es
  | .connected _ _ _ path | .tunnel _ _ path => ReachedBy es path
  | .listening _ _ | .relay _ | .forwarding _ _ _ => ∃ port, .listen (some port) ∈ es
  | _ => True

/-- As long as the handler goes on, nothing has failed. -/
structure Underway (es : List Event) (s : State) : Prop where
  supported : Supported es s.pc
  unfailed : s.pc ≠ .closed → ∀ e ∈ es, e.fails = false

theorem ReachedBy.append {es : List Event} {path : Path} (h : ReachedBy es path) (e : Event) :
    ReachedBy (es ++ [e]) path := by
  cases path with
  | direct => exact List.mem_append_left _ h
  | worker => exact ⟨List.mem_append_left _ h.1, List.mem_append_left _ h.2⟩

theorem Backed.append {es : List Event} {q : Talk} (h : Backed es q) (e : Event) :
    Backed (es ++ [e]) q := by
  cases q with
  | tunnel => exact ReachedBy.append h e
  | relay =>
    obtain ⟨port, hport⟩ := h
    exact ⟨port, List.mem_append_left _ hport⟩
  | _ => trivial

theorem supported_detected {inTLS : Bool} {es : List Event} :
    Supported es (detected s inTLS).pc := by
  unfold detected
  split
  · trivial
  · trivial
  · split <;> trivial
  · trivial

theorem supported_served {es : List Event} {req : HTTPConnect.Request} {username : Bytes}
    {dns : Answers} {routes : Option RouteCache} :
    Supported es (served P s req username dns routes).pc := by
  unfold served
  split
  · split <;> trivial
  · trivial

theorem supported_authenticated {es : List Event} {ok : Bool} :
    Supported es (authenticated P s ok).pc := by
  unfold authenticated
  split
  · trivial
  · split
    · split <;> trivial
    · trivial

theorem supported_commanded {es : List Event} {username : Bytes} {dns : Answers}
    {routes : Option RouteCache} : Supported es (commanded P s username dns routes).pc := by
  unfold commanded
  split
  · trivial
  · split
    · trivial
    · split <;> trivial

theorem supported_step {es : List Event} {e : Event} (h : Supported es s.pc)
    (hs : step L P s e = some t) : Supported (es ++ [e]) t.pc := by
  have hlast : e ∈ es ++ [e] := by simp
  cases step_move hs with
  | detect | detectInTLS => exact supported_detected
  | serve => exact supported_served
  | authenticate => exact supported_authenticated
  | command => exact supported_commanded
  | @dial ok =>
    cases ok with
    | true => exact hlast
    | false => trivial
  | @openSession ok =>
    cases ok with
    | true => exact hlast
    | false => trivial
  | @waitConnected ok _ _ _ hpc =>
    rw [hpc] at h
    cases ok with
    | true => exact ⟨List.mem_append_left _ h, hlast⟩
    | false => trivial
  | @onConnected ok _ _ _ _ hpc =>
    rw [hpc] at h
    cases ok with
    | true => exact h.append _
    | false => trivial
  | transfer hpc =>
    rw [hpc] at h
    simp only [advance, hpc]
    exact h.append _
  | listen => exact ⟨_, hlast⟩
  | @associate ok _ _ _ hpc =>
    rw [hpc] at h
    obtain ⟨port, hport⟩ := h
    cases ok with
    | true => exact ⟨port, List.mem_append_left _ hport⟩
    | false => trivial
  | @openUDP ok _ _ _ hpc =>
    rw [hpc] at h
    obtain ⟨port, hport⟩ := h
    cases ok with
    | true =>
      simp only [advance, hpc, ↓reduceIte]
      exact ⟨port, List.mem_append_left _ hport⟩
    | false => exact ⟨port, List.mem_append_left _ hport⟩
  | malformed hpc | datagram hpc | dialUDP hpc | noUDPLink hpc | sendUDP hpc | forwarded hpc =>
    rw [hpc] at h
    obtain ⟨port, hport⟩ := h
    simp only [advance, hpc]
    exact ⟨port, List.mem_append_left _ hport⟩
  | answerUDP hpc =>
    rcases hpc with hpc | ⟨packet, route, hpc⟩
    · rw [hpc] at h
      obtain ⟨port, hport⟩ := h
      simp only [advance, hpc]
      exact ⟨port, List.mem_append_left _ hport⟩
    · rw [hpc] at h
      obtain ⟨port, hport⟩ := h
      simp only [advance, hpc]
      exact ⟨port, List.mem_append_left _ hport⟩
  | @greet ok =>
    cases ok <;> trivial
  | detectTimeout | handshake | handshakeFailed | unreadable | readRequest | unauthorized
  | authorized | refused | noGreeting | noMethod | noLink | noSocket | noRelayIP | hangUpTunnel
  | hangUpRelay => trivial

/-- A handler that cannot reach its target is done. -/
theorem closed_of_fails {e : Event} (he : e.fails = true) (hs : step L P s e = some t) :
    t.pc = .closed := by
  cases step_move hs with
  | @dial ok | @openSession ok | @waitConnected ok =>
    cases ok with
    | true => cases he
    | false => rfl
  | noLink | noSocket => rfl
  | listen => cases he
  | _ => cases he

theorem open_of_step {e : Event} (hs : step L P s e = some t) : s.pc ≠ .closed := by
  cases step_move hs with
  | answerUDP hpc =>
    rcases hpc with hpc | ⟨packet, route, hpc⟩
    · simp [hpc]
    · simp [hpc]
  | _ => simp [*]

theorem underway_step {es : List Event} {e : Event} (h : Underway es s)
    (hs : step L P s e = some t) : Underway (es ++ [e]) t := by
  refine ⟨supported_step h.supported hs, fun hopen e' he' => ?_⟩
  rcases List.mem_append.mp he' with he' | he'
  · exact h.unfailed (open_of_step hs) e' he'
  · rw [List.mem_singleton.mp he']
    exact Bool.eq_false_iff.mpr fun hfails => hopen (closed_of_fails hfails hs)

/-- Success has been reported only after it, and nothing has failed. -/
def Told (es : List Event) (q : Talk) : Prop :=
  q.reports = true → Backed es q ∧ ∀ e ∈ es, e.fails = false

theorem untold {es : List Event} {q : Talk} (hq : q.reports = false) : Told es q := by
  intro h
  rw [hq] at h
  cases h

theorem backed_of_unreported {es : List Event} {q : Talk} (hq : q.reports = false) :
    Backed es q := by
  cases q with
  | tunnel | relay => cases hq
  | _ => trivial

theorem Underway.tells {es : List Event} {e : Event} {q : Talk} (h : Underway es s)
    (hopen : s.pc ≠ .closed) (he : e.fails = false) (hback : Backed es q) : Told (es ++ [e]) q := by
  refine fun _ => ⟨hback.append e, fun e' he' => ?_⟩
  rcases List.mem_append.mp he' with he' | he'
  · exact h.unfailed hopen e' he'
  · rw [List.mem_singleton.mp he']
    exact he

/-- A handler that has reported success goes on. -/
theorem Underway.told {es : List Event} {e : Event} {q : Talk} (h : Underway es s)
    (hq : talkOf s.pc = some q) (he : e.fails = false) : Told (es ++ [e]) q := by
  have hsupported := h.supported
  refine h.tells (fun hpc => ?_) he ?_
  · rw [hpc] at hq
    cases hq
  · cases hpc : s.pc with
    | tunnel | relay | forwarding =>
      rw [hpc] at hq hsupported
      cases hq
      exact hsupported
    | _ =>
      rw [hpc] at hq
      cases hq
      all_goals trivial

/-- The log is a conversation, up to the place the handler is at. -/
def Conversing (P : Proxy) (es : List Event) (s : State) : Prop :=
  ∃ q, Goes P .silent s.log q ∧ (∀ r, talkOf s.pc = some r → r = q) ∧ Told es q

section Conversing

variable {es : List Event} {e : Event}

theorem Conversing.goes (h : Conversing P es s) {q : Talk} (hq : talkOf s.pc = some q) :
    Goes P .silent s.log q := by
  obtain ⟨r, hr, hat, -⟩ := h
  rw [hat q hq]
  exact hr

theorem Conversing.advance {s' : State} {q r : Talk} {pc : Pc} {actions : List Action}
    (h : Conversing P es s) (hlog : s'.log = s.log) (hq : talkOf s.pc = some q)
    (hgo : Goes P q actions r) (hpc : ∀ r', talkOf pc = some r' → r' = r)
    (htold : Told (es ++ [e]) r) : Conversing P (es ++ [e]) (advance s' pc actions) := by
  refine ⟨r, ?_, hpc, htold⟩
  simp only [HandleConn.advance, hlog]
  exact (h.goes hq).append hgo

/-- The handler says nothing and stays where it is in the conversation, or ends. -/
theorem Conversing.quiet {s' : State} {pc : Pc} (h : Conversing P es s) (hlog : s'.log = s.log)
    {q : Talk} (hq : talkOf s.pc = some q) (hpc : pc = .closed ∨ talkOf pc = talkOf s.pc)
    (htold : Told (es ++ [e]) q) : Conversing P (es ++ [e]) (HandleConn.advance s' pc []) := by
  refine h.advance hlog hq .nil (fun r' hr' => ?_) htold
  rcases hpc with rfl | hpc
  · cases hr'
  · rw [hpc, hq] at hr'
    exact (Option.some.inj hr').symm

theorem conversing_detected {inTLS : Bool} (h : Conversing P es s) (hq : talkOf s.pc = some .silent) :
    Conversing P (es ++ [e]) (detected s inTLS) := by
  unfold detected
  split
  · exact h.quiet rfl hq (Or.inr hq.symm) (untold rfl)
  · exact h.quiet rfl hq (Or.inr hq.symm) (untold rfl)
  · split
    · exact h.quiet rfl hq (Or.inl rfl) (untold rfl)
    · exact h.quiet rfl hq (Or.inr hq.symm) (untold rfl)
  · split
    · exact h.quiet rfl hq (Or.inl rfl) (untold rfl)
    · exact h.advance rfl hq (.one .unreadable) (by simp [talkOf]) (untold rfl)

theorem conversing_served {req : HTTPConnect.Request} {username : Bytes} {dns : Answers}
    {routes : Option RouteCache} (h : Conversing P es s) (hpc : s.pc = .serving req username) :
    Conversing P (es ++ [e]) (served P s req username dns routes) := by
  have hq : talkOf s.pc = some (.serving .http username) := by rw [hpc]; rfl
  unfold served
  split
  · split
    · exact h.advance rfl hq (.one (.refuse (by simp [Handler.refusals]))) (by simp [talkOf]) (untold rfl)
    · exact h.quiet rfl hq (Or.inr hq.symm) (untold rfl)
  · exact h.advance rfl hq (.one (.refuse (by simp [Handler.refusals]))) (by simp [talkOf]) (untold rfl)

theorem conversing_authenticated {ok : Bool} (h : Conversing P es s) (hpc : s.pc = .negotiating) :
    Conversing P (es ++ [e]) (authenticated P s ok) := by
  have hq : talkOf s.pc = some .greeted := by rw [hpc]; rfl
  unfold authenticated
  split
  · exact h.quiet rfl hq (Or.inl rfl) (untold rfl)
  · have hvouch : ∀ u p, Goes P .greeted [.reply [0x01, 0x00], .checked u p true] (.admitted u) :=
      fun u p => .cons (.one (.vouch .socks5)) .welcome
    split
    · split
      · exact h.advance rfl hq (.cons (hvouch _ _) .trackAdmitted) (by simp [talkOf]) (untold rfl)
      · exact h.advance rfl hq (hvouch _ _) (by simp [talkOf]) (untold rfl)
    · exact h.advance rfl hq (.cons (.one (.deny .socks5)) (.denial .socks5)) (by simp [talkOf]) (untold rfl)

theorem conversing_commanded {username : Bytes} {dns : Answers} {routes : Option RouteCache}
    (h : Conversing P es s) (hpc : s.pc = .commanding username) :
    Conversing P (es ++ [e]) (commanded P s username dns routes) := by
  have hq : talkOf s.pc = some (.serving .socks5 username) := by rw [hpc]; rfl
  unfold commanded
  split
  · exact h.quiet rfl hq (Or.inl rfl) (untold rfl)
  · split
    · exact h.quiet rfl hq (Or.inr hq.symm) (untold rfl)
    · split
      · exact h.quiet rfl hq (Or.inr hq.symm) (untold rfl)
      · exact h.advance rfl hq (.one (.refuse (by simp [Handler.refusals]))) (by simp [talkOf]) (untold rfl)

theorem goes_traffic {q : Talk} {u : Bytes} {d : Direction} {path : Path} {n : Nat}
    (htalk : 0 < n → Says P q (.traffic (accountName u) d path n) q) :
    Goes P q (recordTraffic u d path n) q := by
  unfold recordTraffic
  split
  · exact .nil
  · exact .one (htalk (Nat.pos_of_ne_zero ‹_›))

theorem conversing_step {e : Event} (hu : Underway es s) (h : Conversing P es s)
    (hs : step L P s e = some t) : Conversing P (es ++ [e]) t := by
  cases step_move hs with
  | detect hpc | detectInTLS hpc => exact conversing_detected h (by rw [hpc]; rfl)
  | serve hpc => exact conversing_served h hpc
  | authenticate hpc => exact conversing_authenticated h hpc
  | command hpc => exact conversing_commanded h hpc
  | @malformed data dns routes username hpc hno =>
    obtain ⟨q, hgo, hat, -⟩ := h
    have hq : talkOf s.pc = some (.relay username) := by rw [hpc]; rfl
    obtain rfl := hat _ hq
    exact ⟨_, hgo, hat, hu.told hq rfl⟩
  | detectTimeout hpc =>
    exact h.advance rfl (by rw [hpc]; rfl) (.one .unreadable) (by simp [talkOf])
      (untold rfl)
  | unreadable hpc hno =>
    exact h.advance rfl (by rw [hpc]; rfl) (.one .unreadable) (by simp [talkOf])
      (untold rfl)
  | unauthorized hpc hno =>
    exact h.advance rfl (by rw [hpc]; rfl) (.one .noCredentials) (by simp [talkOf])
      (untold rfl)
  | authorized hpc hauth hok =>
    exact h.advance rfl (by rw [hpc]; rfl) (.cons (.one (.vouch .http)) .track) (by simp [talkOf])
      (untold rfl)
  | refused hpc hauth hno =>
    exact h.advance rfl (by rw [hpc]; rfl) (.cons (.one (.deny .http)) (.denial .http))
      (by simp [talkOf]) (untold rfl)
  | greet hpc hread hmethod =>
    refine h.advance rfl (by rw [hpc]; rfl) (.one .method) ?_ (untold rfl)
    split <;> simp [talkOf]
  | noMethod hpc hread hno =>
    exact h.advance rfl (by rw [hpc]; rfl) (.one .noMethod) (by simp [talkOf]) (untold rfl)
  | dial hpc hroute =>
    refine h.advance rfl (by rw [hpc]; rfl) (.one .dial) ?_ (untold rfl)
    split <;> simp [talkOf]
  | openSession hpc hroute =>
    refine h.advance rfl (by rw [hpc]; rfl) (.one (.openSession hroute)) ?_ (untold rfl)
    split <;> simp [talkOf]
  | waitConnected hpc =>
    refine h.quiet rfl (by rw [hpc]; rfl) ?_ (untold rfl)
    split <;> simp [talkOf, hpc]
  | onConnected hpc =>
    have hback := hu.supported
    rw [hpc] at hback
    refine h.advance rfl (by rw [hpc]; rfl) (.one .success) ?_ (hu.tells (by simp [hpc]) rfl hback)
    split <;> simp [talkOf]
  | transfer hpc =>
    exact h.advance rfl (by rw [hpc]; rfl) (goes_traffic .transfer) (by simp [talkOf, hpc])
      (hu.told (by rw [hpc]; rfl) rfl)
  | listen hpc =>
    exact h.advance rfl (by rw [hpc]; rfl) (.one .listen) (by simp [talkOf])
      (untold rfl)
  | noSocket hpc =>
    exact h.advance rfl (by rw [hpc]; rfl) (.one .listen) (by simp [talkOf])
      (untold rfl)
  | associate hpc hip =>
    have hback := hu.supported
    rw [hpc] at hback
    refine h.advance rfl (by rw [hpc]; rfl) (.one (.associate hip)) ?_
      (hu.tells (by simp [hpc]) rfl hback)
    split <;> simp [talkOf]
  | dialUDP hpc hroute =>
    exact h.advance rfl (by rw [hpc]; rfl) (.one .dialUDP) (by simp [talkOf, hpc])
      (hu.told (by rw [hpc]; rfl) rfl)
  | openUDP hpc hroute =>
    refine h.advance rfl (by rw [hpc]; rfl) (.one (.openUDP hroute)) ?_
      (hu.told (by rw [hpc]; rfl) rfl)
    split <;> simp [talkOf, hpc]
  | sendUDP hpc hn =>
    exact h.advance rfl (by rw [hpc]; rfl) (goes_traffic .transferUDP) (by simp [talkOf, hpc])
      (hu.told (by rw [hpc]; rfl) rfl)
  | answerUDP hpc =>
    rcases hpc with hpc | ⟨packet, route, hpc⟩
    · exact h.advance rfl (by rw [hpc]; rfl) (goes_traffic .transferUDP) (by simp [talkOf, hpc])
        (hu.told (by rw [hpc]; rfl) rfl)
    · exact h.advance rfl (by rw [hpc]; rfl) (goes_traffic .transferUDP) (by simp [talkOf, hpc])
        (hu.told (by rw [hpc]; rfl) rfl)
  | handshake hpc | readRequest hpc =>
    exact h.quiet rfl (by rw [hpc]; rfl) (Or.inr (by rw [hpc]; rfl)) (untold rfl)
  | datagram hpc | noUDPLink hpc | forwarded hpc =>
    exact h.quiet rfl (by rw [hpc]; rfl) (Or.inr (by rw [hpc]; rfl)) (hu.told (by rw [hpc]; rfl) rfl)
  | handshakeFailed hpc hno | noGreeting hpc hno | noLink hpc hroute | noRelayIP hpc hno =>
    exact h.quiet rfl (by rw [hpc]; rfl) (Or.inl rfl) (untold rfl)
  | hangUpTunnel hpc | hangUpRelay hpc =>
    exact h.quiet rfl (by rw [hpc]; rfl) (Or.inl rfl) (hu.told (by rw [hpc]; rfl) rfl)

/-- Whatever the client sends and whatever fails, what the proxy says to it and does
for it keeps to the protocol, and reaches for one target at most. Success is reported only
once the dial, the open with its answer, or the socket of the relay has succeeded; and where
the target could not be reached nothing is said to the client behind the attempt. -/
theorem keeps_conversation {es : List Event} (hr : run (step L P) (initial stream) es = some s) :
    ∃ q, Goes P .silent s.log q ∧ (∀ r, talkOf s.pc = some r → r = q) ∧
      s.log.countP Action.reaches = q.reached ∧ Backed es q ∧
      ((∃ e ∈ es, e.fails = true) → ∀ l m text, s.log = l ++ .reply text :: m →
        m.countP Action.reaches = 0) := by
  have hinit : Underway [] (initial stream) ∧ Conversing P [] (initial stream) := by
    refine ⟨⟨trivial, fun _ e he => absurd he List.not_mem_nil⟩, .silent, .nil, ?_, untold rfl⟩
    exact fun r hr' => (Option.some.inj hr').symm
  obtain ⟨-, q, hgo, hat, htold⟩ := run_history
    (I := fun es s => Underway es s ∧ Conversing P es s)
    hinit (fun es s e t h hs => ⟨underway_step h.1 hs, conversing_step h.1 h.2 hs⟩) hr
  refine ⟨q, hgo, hat, hgo.countP_reaches, ?_, ?_⟩
  · cases hq : q.reports with
    | true => exact (htold hq).1
    | false => exact backed_of_unreported hq
  · rintro ⟨e, he, hfails⟩ l m text hlog
    rw [hlog] at hgo
    by_contra hm
    have hunfailed := (htold (hgo.reports (Nat.pos_of_ne_zero hm))).2 e he
    rw [hfails] at hunfailed
    cases hunfailed

end Conversing

/-- A SOCKS5 client that sends two bytes of its own behind its requests. -/
def eagerStream : Bytes :=
  [0x05, 0x01, 0x02, 0x01, 0x01, 0x75, 0x01, 0x70, 0x05, 0x01, 0x00, 0x01, 1, 2, 3, 4, 0, 80, 7, 8]

def eagerRun : List Event :=
  [.detect, .greet true, .authenticate true, .command (fun _ => none) none, .dial true,
    .onConnected true, .transfer .clientToTarget 2]

def eagerProxy : Proxy := ⟨ascii "direct", none, fun _ _ => true⟩

theorem run_eagerRun : ∃ s, run (step noLibrary eagerProxy) (initial eagerStream) eagerRun = some s ∧
    s.pc = .tunnel [0x75] (ascii "1.2.3.4:80") .direct ∧ s.input = [7, 8] := by
  have hplace : (run (step noLibrary eagerProxy) (initial eagerStream) eagerRun).map
      (fun s => (s.pc, s.input)) = some (.tunnel [0x75] (ascii "1.2.3.4:80") .direct, [7, 8]) := by
    decide +kernel
  obtain ⟨s, hr, hs⟩ := Option.map_eq_some_iff.mp hplace
  exact ⟨s, hr, (Prod.mk.inj hs).1, (Prod.mk.inj hs).2⟩

/-- The same client, whose target does not answer. -/
def unreachableRun : List Event :=
  [.detect, .greet true, .authenticate true, .command (fun _ => none) none, .dial false]

theorem keeps_conversation_eager :
    (∃ s q, run (step noLibrary eagerProxy) (initial eagerStream) eagerRun = some s ∧
      q = .tunnel [0x75] .direct ∧ Goes eagerProxy .silent s.log q ∧ Backed eagerRun q) ∧
    ∃ s, run (step noLibrary eagerProxy) (initial eagerStream) unreachableRun = some s ∧
      s.log.countP Action.reaches = 1 ∧
      ∀ l m text, s.log = l ++ .reply text :: m → m.countP Action.reaches = 0 := by
  constructor
  · obtain ⟨s, hr, hpc, -⟩ := run_eagerRun
    obtain ⟨q, hgo, hat, -, hback, -⟩ := keeps_conversation hr
    exact ⟨s, q, hr, (hat _ (by rw [hpc]; rfl)).symm, hgo, hback⟩
  · have hcount : (run (step noLibrary eagerProxy) (initial eagerStream) unreachableRun).map
        (fun s => s.log.countP Action.reaches) = some 1 := by decide +kernel
    obtain ⟨s, hr, hone⟩ := Option.map_eq_some_iff.mp hcount
    obtain ⟨q, -, -, -, -, hquiet⟩ := keeps_conversation hr
    exact ⟨s, hr, hone, hquiet ⟨.dial false, by simp [unreachableRun], rfl⟩⟩

/-! ## What a tunnel starts from -/

def Handler.protocol : Handler → Protocol
  | .http => .http
  | .socks5 => .socks5

/-- The client speaks the handler's protocol, in the clear or behind a TLS
handshake. -/
def Spoken (L : Library) (stream : Bytes) (h : Handler) (plain : Bytes) : Prop :=
  (plain = stream ∨ detectProtocol stream = some .tls ∧ L.handshake stream = some plain) ∧
    detectProtocol plain = some h.protocol

/-- The text asks for a connection of this user to this address, and goes on after
that. -/
inductive Asks (L : Library) (plain : Bytes) : Handler → Bytes → Bytes → Bytes → Prop where
  | http {req : HTTPConnect.Request} {u p host port rest : Bytes}
      (hread : L.readRequest plain = some (req, rest)) (hmethod : req.method = methodConnect)
      (hauth : basicCredentials req.proxyAuthorization = some (u, p))
      (htarget : parseConnectTarget req = some (host, port)) :
      Asks L plain .http u (joinHostPort host port) rest
  | socks5 {req : SOCKS5Request} {methods u p afterGreeting afterLogin rest : Bytes}
      (hgreet : readGreeting plain = some (methods, afterGreeting))
      (hlogin : readCredentials afterGreeting = some (u, p, afterLogin))
      (hread : readSOCKS5Request afterLogin = some (req, rest)) (hcmd : req.cmd = 0x01) :
      Asks L plain .socks5 u (joinHostPort req.host (itoa req.port)) rest

/-- What has been read of the stream, and what is left of it. -/
def Follows (L : Library) (stream : Bytes) (s : State) : Prop :=
  match s.pc with
  | .accepted => s.input = stream
  | .handshaking => s.input = stream ∧ detectProtocol stream = some .tls
  | .secured => detectProtocol stream = some .tls ∧ L.handshake stream = some s.input
  | .http => Spoken L stream .http s.input
  | .socks5 => Spoken L stream .socks5 s.input
  | .authorizing req =>
    ∃ plain, Spoken L stream .http plain ∧ L.readRequest plain = some (req, s.input)
  | .serving req u =>
    ∃ plain, Spoken L stream .http plain ∧ L.readRequest plain = some (req, s.input) ∧
      ∃ p, basicCredentials req.proxyAuthorization = some (u, p)
  | .negotiating =>
    ∃ plain, Spoken L stream .socks5 plain ∧
      ∃ methods, readGreeting plain = some (methods, s.input)
  | .commanding u =>
    ∃ plain, Spoken L stream .socks5 plain ∧
      ∃ methods rest, readGreeting plain = some (methods, rest) ∧
        ∃ p, readCredentials rest = some (u, p, s.input)
  | .connecting h u address _ | .waiting h u address | .connected h u address _ =>
    ∃ plain, Spoken L stream h plain ∧ Asks L plain h u address s.input
  | .tunnel u address _ =>
    ∃ h plain, Spoken L stream h plain ∧ Asks L plain h u address s.input
  | .associating _ | .listening _ _ | .relay _ | .forwarding _ _ _ | .closed => True

/-- The address has been dialled, or asked of a worker. -/
def ContactedBy (address : Bytes) (log : List Action) : Path → Prop
  | .direct => .dialed address ∈ log
  | .worker => ∃ route, .openedSession route address .tcp ∈ log

def Contacted (s : State) : Prop :=
  match s.pc with
  | .waiting _ _ address => ContactedBy address s.log .worker
  | .connected _ _ address path | .tunnel _ address path => ContactedBy address s.log path
  | _ => True

theorem follows_closed (s : State) (actions : List Action) :
    Follows L stream (advance s .closed actions) := trivial

theorem follows_detected {inTLS : Bool}
    (hplain : s.input = stream ∨
      detectProtocol stream = some .tls ∧ L.handshake stream = some s.input)
    (hclear : inTLS = false → s.input = stream) : Follows L stream (detected s inTLS) := by
  unfold detected
  split
  · exact ⟨hplain, ‹_›⟩
  · exact ⟨hplain, ‹_›⟩
  · split
    · exact follows_closed _ _
    · rename_i htls hno
      have hinput := hclear (Bool.eq_false_iff.mpr hno)
      exact ⟨hinput, by rw [← hinput]; exact htls⟩
  · exact follows_closed _ _

theorem follows_served {req : HTTPConnect.Request} {username : Bytes} {dns : Answers}
    {routes : Option RouteCache} (h : Follows L stream s) (hpc : s.pc = .serving req username) :
    Follows L stream (served P s req username dns routes) := by
  simp only [Follows, hpc] at h
  obtain ⟨plain, hspoken, hread, p, hauth⟩ := h
  unfold served
  split
  · split
    · exact follows_closed _ _
    · exact ⟨plain, hspoken, .http hread ‹_› hauth ‹_›⟩
  · exact follows_closed _ _

theorem follows_authenticated {ok : Bool} (h : Follows L stream s) (hpc : s.pc = .negotiating) :
    Follows L stream (authenticated P s ok) := by
  simp only [Follows, hpc] at h
  obtain ⟨plain, hspoken, methods, hgreet⟩ := h
  unfold authenticated
  split
  · exact follows_closed _ _
  · split
    · split
      · exact ⟨plain, hspoken, methods, s.input, hgreet, _, ‹_›⟩
      · exact follows_closed _ _
    · exact follows_closed _ _

theorem follows_commanded {username : Bytes} {dns : Answers} {routes : Option RouteCache}
    (h : Follows L stream s) (hpc : s.pc = .commanding username) :
    Follows L stream (commanded P s username dns routes) := by
  simp only [Follows, hpc] at h
  obtain ⟨plain, hspoken, methods, rest, hgreet, p, hlogin⟩ := h
  unfold commanded
  split
  · exact follows_closed _ _
  · split
    · exact ⟨plain, hspoken, .socks5 hgreet hlogin ‹_› ‹_›⟩
    · split
      · trivial
      · exact follows_closed _ _

theorem follows_step {e : Event} (h : Follows L stream s) (hs : step L P s e = some t) :
    Follows L stream t := by
  cases step_move hs with
  | detect hpc =>
    simp only [Follows, hpc] at h
    exact follows_detected (Or.inl h) fun _ => h
  | detectInTLS hpc =>
    simp only [Follows, hpc] at h
    exact follows_detected (Or.inr h) (by simp)
  | serve hpc => exact follows_served h hpc
  | authenticate hpc => exact follows_authenticated h hpc
  | command hpc => exact follows_commanded h hpc
  | malformed hpc hno => exact h
  | handshake hpc hplain =>
    simp only [Follows, hpc] at h
    rw [h.1] at hplain
    exact ⟨h.2, hplain⟩
  | readRequest hpc hreq =>
    simp only [Follows, hpc] at h
    exact ⟨s.input, h, hreq⟩
  | authorized hpc hauth hok =>
    simp only [Follows, hpc] at h
    obtain ⟨plain, hspoken, hread⟩ := h
    exact ⟨plain, hspoken, hread, _, hauth⟩
  | greet hpc hread hmethod =>
    simp only [Follows, hpc] at h
    split
    · exact ⟨s.input, h, _, hread⟩
    · trivial
  | dial hpc hroute | openSession hpc hroute | waitConnected hpc =>
    simp only [Follows, hpc] at h
    split
    · exact h
    · trivial
  | onConnected hpc =>
    simp only [Follows, hpc] at h
    split
    · exact ⟨_, h⟩
    · trivial
  | transfer hpc =>
    simp only [Follows, hpc] at h
    simp only [Follows, advance, hpc]
    exact h
  | associate hpc hip | openUDP hpc hroute => split <;> simp [Follows, advance, hpc]
  | dialUDP hpc hroute | sendUDP hpc hn => simp [Follows, advance, hpc]
  | answerUDP hpc =>
    rcases hpc with hpc | ⟨packet, route, hpc⟩ <;> simp [Follows, advance, hpc]
  | detectTimeout hpc | handshakeFailed hpc hno | unreadable hpc hno | unauthorized hpc hno
  | refused hpc hauth hno | noGreeting hpc hno | noMethod hpc hread hno | noLink hpc hroute
  | noSocket hpc | listen hpc | noRelayIP hpc hno | datagram hpc | noUDPLink hpc
  | forwarded hpc | hangUpTunnel hpc | hangUpRelay hpc => trivial

theorem ContactedBy.append {path : Path} {address : Bytes} {log : List Action}
    (h : ContactedBy address log path) (actions : List Action) :
    ContactedBy address (actions ++ log) path := by
  cases path with
  | direct => exact List.mem_append_right actions h
  | worker =>
    obtain ⟨route, hroute⟩ := h
    exact ⟨route, List.mem_append_right actions hroute⟩

theorem contacted_step {e : Event} (h : Contacted s) (hs : step L P s e = some t) :
    Contacted t := by
  cases step_move hs with
  | detect hpc | detectInTLS hpc =>
    unfold detected
    split
    · trivial
    · trivial
    · split <;> trivial
    · trivial
  | serve hpc =>
    unfold served
    split
    · split <;> trivial
    · trivial
  | authenticate hpc =>
    unfold authenticated
    split
    · trivial
    · split
      · split <;> trivial
      · trivial
  | command hpc =>
    unfold commanded
    split
    · trivial
    · split
      · trivial
      · split <;> trivial
  | malformed hpc hno => exact h
  | dial hpc hroute =>
    split
    · exact List.mem_cons_self
    · trivial
  | openSession hpc hroute =>
    split
    · exact ⟨_, List.mem_cons_self⟩
    · trivial
  | waitConnected hpc =>
    simp only [Contacted, hpc] at h
    split
    · exact h
    · trivial
  | onConnected hpc =>
    simp only [Contacted, hpc] at h
    split
    · exact h.append _
    · trivial
  | transfer hpc =>
    simp only [Contacted, hpc] at h
    simp only [Contacted, advance, hpc]
    exact h.append _
  | associate hpc hip | openUDP hpc hroute => split <;> simp [Contacted, advance, hpc]
  | greet hpc hread hmethod => split <;> trivial
  | dialUDP hpc hroute | sendUDP hpc hn => simp [Contacted, advance, hpc]
  | answerUDP hpc =>
    rcases hpc with hpc | ⟨packet, route, hpc⟩ <;> simp [Contacted, advance, hpc]
  | handshake hpc | readRequest hpc | authorized hpc hauth hok
  | detectTimeout hpc | handshakeFailed hpc hno | unreadable hpc hno | unauthorized hpc hno
  | refused hpc hauth hno | noGreeting hpc hno | noMethod hpc hread hno | noLink hpc hroute
  | noSocket hpc | listen hpc | noRelayIP hpc hno | datagram hpc | noUDPLink hpc
  | forwarded hpc | hangUpTunnel hpc | hangUpRelay hpc => trivial

/-- A tunnel is for the user and the address of one request in the stream, the address
has been dialled or asked of a worker, and what the tunnel has yet to read begins right
behind the request. -/
theorem tunnel_follows_request {es : List Event} {u address : Bytes} {path : Path}
    (hr : run (step L P) (initial stream) es = some s) (hpc : s.pc = .tunnel u address path) :
    (∃ h plain, Spoken L stream h plain ∧ Asks L plain h u address s.input) ∧
      ContactedBy address s.log path := by
  have hunread : Follows L stream (initial stream) := rfl
  have hnone : Contacted (initial stream) := trivial
  have hfollows : Follows L stream s := run_preserves (fun _ _ _ => follows_step) hunread hr
  have hcontacted : Contacted s := run_preserves (fun _ _ _ => contacted_step) hnone hr
  simp only [Follows, hpc] at hfollows
  simp only [Contacted, hpc] at hcontacted
  exact ⟨hfollows, hcontacted⟩

theorem tunnel_follows_request_eager :
    ∃ s h plain, run (step noLibrary eagerProxy) (initial eagerStream) eagerRun = some s ∧
      Spoken noLibrary eagerStream h plain ∧
      Asks noLibrary plain h [0x75] (ascii "1.2.3.4:80") [7, 8] := by
  obtain ⟨s, hr, hpc, hinput⟩ := run_eagerRun
  obtain ⟨⟨h, plain, hspoken, hasks⟩, -⟩ := tunnel_follows_request hr hpc
  rw [hinput] at hasks
  exact ⟨s, h, plain, hr, hspoken, hasks⟩

end SplitProxy.HandleConn
