import SplitProxy.AuthBeforeUse

/-!
# Methods other than CONNECT

Two parts of the proxy look at the method of a request: `detectProtocol` at the first
seven bytes, and the switch in `handleHTTPProxy` at the method itself. A request gets
to the second only if the first has taken it for HTTP.
-/
namespace SplitProxy.HandleConn

open Runs GoText NetIP Routing HTTPConnect Socks5

/-- The bytes a method may consist of. -/
def isTokenByte (b : UInt8) : Bool :=
  (0x41 ≤ b.toNat ∧ b.toNat ≤ 0x5A) ∨ (0x5E ≤ b.toNat ∧ b.toNat ≤ 0x7A) ∨ isDigit b ∨
    b ∈ [0x21, 0x23, 0x24, 0x25, 0x26, 0x27, 0x2A, 0x2B, 0x2D, 0x2E, 0x7C, 0x7E]

def IsToken (s : Bytes) : Prop := s ≠ [] ∧ ∀ b ∈ s, isTokenByte b = true

/-- `http.ReadRequest` takes the method off the start of the text, where a space ends it. -/
def ReadsMethod (L : Library) : Prop :=
  ∀ s req rest, L.readRequest s = some (req, rest) →
    IsToken req.method ∧ ∃ t, s = req.method ++ 0x20 :: t

/-- The first bytes of the connection are this text, in the clear or inside TLS. -/
inductive Sent (L : Library) (stream : Bytes) : Bytes → Prop where
  | clear : Sent L stream stream
  | inTLS {plain : Bytes} (hdetect : detectProtocol stream = some .tls)
      (h : L.handshake stream = some plain) : Sent L stream plain

/-- The texts sent to the client, the latest first. -/
def replies (log : List Action) : List Bytes :=
  log.filterMap fun
    | .reply text => some text
    | _ => none

/-- The client is in time, and its handshake is in order. -/
def Undisturbed : Event → Prop
  | .detectTimeout | .handshake false => False
  | _ => True

/-- The connection comes to its end, and there the one answer is 501; nobody is contacted. -/
def Answers501 (L : Library) (P : Proxy) (stream : Bytes) : Prop :=
  (∃ es s, (∀ e ∈ es, Undisturbed e) ∧ run (step L P) (initial stream) es = some s ∧
    s.pc = .closed) ∧
  ∀ es s, (∀ e ∈ es, Undisturbed e) → run (step L P) (initial stream) es = some s →
    (∀ a ∈ s.log, a.outward = none) ∧
      (s.pc = .closed → replies s.log = [proxyError notImplemented])

/-! ## What the detector takes for HTTP -/

theorem isTokenByte_ne {b : UInt8} (h : isTokenByte b = true) : b ≠ 0x05 ∧ b ≠ 0x16 ∧ b ≠ 0x20 := by
  refine ⟨?_, ?_, ?_⟩ <;> rintro rfl <;> exact absurd h (by decide)

theorem take_seven {method t : Bytes} (hm : 0x20 ∉ method) :
    (method ++ 0x20 :: t).take 7 = methodConnect ↔ methodConnect <+: method := by
  have hlen : methodConnect.length = 7 := by decide
  have hspace : (0x20 : UInt8) ∉ methodConnect := by decide
  constructor
  · intro h
    by_cases hle : 7 ≤ method.length
    · rw [List.take_append_of_le_length hle] at h
      exact h ▸ List.take_prefix 7 method
    · -- the space would be one of the seven
      have hmem : (0x20 : UInt8) ∈ (method ++ 0x20 :: t).take 7 := by
        obtain ⟨k, hk⟩ := Nat.exists_eq_succ_of_ne_zero (show 7 - method.length ≠ 0 by omega)
        rw [List.take_append, hk, List.take_succ_cons]
        simp
      rw [h] at hmem
      exact absurd hmem hspace
  · rintro ⟨rest, rfl⟩
    rw [List.append_assoc, List.take_left' hlen]

theorem detectProtocol_request {method t : Bytes} (hm : IsToken method) :
    detectProtocol (method ++ 0x20 :: t) =
      if methodConnect <+: method then some .http else none := by
  obtain ⟨hne, htoken⟩ := hm
  have hspace : (0x20 : UInt8) ∉ method := fun h => (isTokenByte_ne (htoken _ h)).2.2 rfl
  have hseven := @take_seven method t hspace
  obtain ⟨b, rest, rfl⟩ := List.exists_cons_of_ne_nil hne
  obtain ⟨h05, h16, -⟩ := isTokenByte_ne (htoken b List.mem_cons_self)
  have htls : ((b :: rest) ++ 0x20 :: t).take 2 ≠ [0x16, 0x03] := by
    intro h
    rw [List.cons_append, List.take_succ_cons] at h
    exact h16 (List.cons.inj h).1
  simp only [List.cons_append] at hseven htls ⊢
  rw [detectProtocol, if_neg h05, if_neg fun h => htls h.2]
  by_cases hp : methodConnect <+: b :: rest
  · rw [if_pos hp, if_pos (hseven.mpr hp)]
  · rw [if_neg hp, if_neg fun h => hp (hseven.mp h)]

/-! ## A method the detector lets through -/

section

variable {L : Library} {P : Proxy} {stream plain rest u p : Bytes} {req : Request} {s t : State}

/-- Where the connection of such a request can be. -/
def Going (L : Library) (stream plain : Bytes) (req : Request) (s : State) : Prop :=
  (∀ a ∈ s.log, a.outward = none) ∧
    match s.pc with
    | .accepted => s.input = stream ∧ replies s.log = []
    | .handshaking => L.handshake s.input = some plain ∧ replies s.log = []
    | .secured => s.input = plain ∧ replies s.log = []
    | .http => s.input = plain ∧ replies s.log = []
    | .authorizing r => r = req ∧ replies s.log = []
    | .serving r _ => r = req ∧ replies s.log = []
    | .closed => replies s.log = [proxyError notImplemented]
    | _ => False

theorem going_step {e : Event} (hsent : Sent L stream plain)
    (hdetect : detectProtocol plain = some .http) (hreq : L.readRequest plain = some (req, rest))
    (hauth : basicCredentials req.proxyAuthorization = some (u, p))
    (hcheck : P.checkCredentials u p = true) (hmethod : req.method ≠ methodConnect)
    (he : Undisturbed e) (h : Going L stream plain req s) (hs : step L P s e = some t) :
    Going L stream plain req t := by
  obtain ⟨hquiet, hgo⟩ := h
  cases step_move hs with
  | detect hpc =>
    rw [hpc] at hgo
    obtain ⟨hinput, hlog⟩ := hgo
    cases hsent with
    | clear =>
      rw [detected, hinput, hdetect]
      exact ⟨hquiet, hinput, hlog⟩
    | inTLS htls hhand =>
      rw [detected, hinput, htls]
      exact ⟨hquiet, by rw [← hinput] at hhand; exact hhand, hlog⟩
  | detectInTLS hpc =>
    rw [hpc] at hgo
    rw [detected, hgo.1, hdetect]
    exact ⟨hquiet, hgo⟩
  | handshake hpc hplain =>
    rw [hpc] at hgo
    cases hgo.1.symm.trans hplain
    exact ⟨hquiet, rfl, hgo.2⟩
  | handshakeFailed hpc hno =>
    rw [hpc] at hgo
    rcases hno with rfl | hno
    · cases he
    · cases hgo.1.symm.trans hno
  | unreadable hpc hno =>
    rw [hpc] at hgo
    rw [hgo.1, hreq] at hno
    cases hno
  | readRequest hpc hread =>
    rw [hpc] at hgo
    rw [hgo.1, hreq] at hread
    cases hread
    exact ⟨hquiet, rfl, hgo.2⟩
  | unauthorized hpc hno =>
    rw [hpc] at hgo
    rw [hgo.1, hauth] at hno
    cases hno
  | authorized hpc hread =>
    rw [hpc] at hgo
    obtain ⟨rfl, hlog⟩ := hgo
    refine ⟨fun a ha => ?_, rfl, hlog⟩
    rcases List.mem_cons.mp ha with rfl | ha
    · rfl
    · rcases List.mem_cons.mp ha with rfl | ha
      · rfl
      · exact hquiet a ha
  | refused hpc hread hno =>
    rw [hpc] at hgo
    rw [hgo.1, hauth] at hread
    cases hread
    rw [hcheck] at hno
    cases hno
  | serve hpc =>
    rw [hpc] at hgo
    obtain ⟨rfl, hlog⟩ := hgo
    rw [served, if_neg hmethod]
    refine ⟨fun a ha => ?_, congrArg (proxyError notImplemented :: ·) hlog⟩
    rcases List.mem_cons.mp ha with rfl | ha
    · rfl
    · exact hquiet a ha
  | detectTimeout => cases he
  | answerUDP hpc =>
    -- no other step is enabled on the way
    obtain hpc | ⟨packet, route, hpc⟩ := hpc <;> simp only [hpc] at hgo
  | _ => simp_all

theorem going_run {es : List Event} (hsent : Sent L stream plain)
    (hdetect : detectProtocol plain = some .http) (hreq : L.readRequest plain = some (req, rest))
    (hauth : basicCredentials req.proxyAuthorization = some (u, p))
    (hcheck : P.checkCredentials u p = true) (hmethod : req.method ≠ methodConnect)
    (hes : ∀ e ∈ es, Undisturbed e) (h : run (step L P) (initial stream) es = some s) :
    Going L stream plain req s := by
  refine run_invariant (C := fun _ e => Undisturbed e) (I := Going L stream plain req)
    (fun _ _ _ hg he hst => going_step hsent hdetect hreq hauth hcheck hmethod he hg hst) ?_
    (meets_of_mem fun e he _ => hes e he) h
  exact ⟨fun a ha => absurd ha List.not_mem_nil, rfl, rfl⟩

/-- The detector gets to see the text of the client, before or after the handshake. -/
theorem reach_detected (P : Proxy) (hsent : Sent L stream plain) :
    ∃ es pc inTLS, (∀ e ∈ es, Undisturbed e) ∧
      run (step L P) (initial stream) es = some (detected ⟨pc, plain, []⟩ inTLS) := by
  cases hsent with
  | clear =>
    refine ⟨[.detect], .accepted, false, ?_, rfl⟩
    simp [Undisturbed]
  | inTLS htls hhand =>
    refine ⟨[.detect, .handshake true, .detect], .secured, true, ?_, ?_⟩
    · simp [Undisturbed]
    · have hfirst : step L P (initial stream) .detect = some ⟨.handshaking, stream, []⟩ := by
        simp [step, initial, detected, htls, advance]
      have hsecond : step L P ⟨.handshaking, stream, []⟩ (.handshake true) =
          some ⟨.secured, plain, []⟩ := by
        simp [step, hhand, advance]
      rw [run_cons, hfirst, Option.bind_some, run_cons, hsecond, Option.bind_some]
      rfl

/-- A request in the hands of `handleHTTPProxy` runs to the end of the connection. -/
theorem http_closes (hreq : L.readRequest plain = some (req, rest))
    (hauth : basicCredentials req.proxyAuthorization = some (u, p))
    (hcheck : P.checkCredentials u p = true) (hmethod : req.method ≠ methodConnect) :
    ∃ t, run (step L P) ⟨.http, plain, []⟩
      [.readRequest, .checkAuthUser, .serve (fun _ => none) none] = some t ∧ t.pc = .closed := by
  simp [run, step, served, advance, hreq, hauth, hcheck, hmethod]

/-- The exact condition for the answer 501: only a method that begins with `CONNECT`
gets past the detector. -/
theorem nonConnect_answered_iff (L : Library) (P : Proxy) (stream plain rest u p : Bytes)
    (req : Request) (hL : ReadsMethod L) (hsent : Sent L stream plain)
    (hreq : L.readRequest plain = some (req, rest))
    (hauth : basicCredentials req.proxyAuthorization = some (u, p))
    (hcheck : P.checkCredentials u p = true) (hmethod : req.method ≠ methodConnect) :
    Answers501 L P stream ↔ methodConnect <+: req.method := by
  obtain ⟨htoken, text, htext⟩ := hL plain req rest hreq
  have hdetect : detectProtocol plain = if methodConnect <+: req.method then some .http else none :=
    htext ▸ detectProtocol_request htoken
  obtain ⟨es, pc, inTLS, hes, hrun⟩ := reach_detected P hsent
  constructor
  · rintro ⟨-, hall⟩
    by_contra hno
    rw [if_neg hno] at hdetect
    have hanswer := (hall es _ hes hrun).2
    rw [detected, hdetect] at hanswer
    have hreplies := hanswer rfl
    have hother : proxyError badRequest ≠ proxyError notImplemented := by decide
    cases inTLS with
    | false => exact hother (List.cons.inj hreplies).1
    | true => cases hreplies
  · intro hconnect
    rw [if_pos hconnect] at hdetect
    rw [detected, hdetect] at hrun
    obtain ⟨t, ht, hclosed⟩ := http_closes hreq hauth hcheck hmethod
    refine ⟨⟨es ++ [.readRequest, .checkAuthUser, .serve (fun _ => none) none], t, ?_, ?_,
      hclosed⟩, ?_⟩
    · intro e he
      rcases List.mem_append.mp he with he | he
      · exact hes e he
      · simp only [List.mem_cons, List.not_mem_nil, or_false] at he
        rcases he with rfl | rfl | rfl <;> trivial
    · rw [run_append, hrun]
      exact ht
    · intro es' s hes' hs
      have hgoing := going_run hsent hdetect hreq hauth hcheck hmethod hes' hs
      refine ⟨hgoing.1, fun hclosed => ?_⟩
      have hpc := hgoing.2
      rw [hclosed] at hpc
      exact hpc

end

/-- A request of the user `u` with the password `p`. -/
def requestText (method : Bytes) : Bytes :=
  method ++ ascii " / HTTP/1.1\r\nHost: h\r\nProxy-Authorization: Basic dTpw\r\n\r\n"

def requestOf (method : Bytes) : Request := ⟨method, ascii "/", ascii "h", [ascii "Basic dTpw"]⟩

/-- The library, as far as such a request asks it. -/
def methodLibrary (method : Bytes) : Library :=
  ⟨fun s => if s = requestText method then some (requestOf method, []) else none, fun _ => none⟩

def proxyOfU : Proxy := ⟨ascii "direct", none, fun u p => u = ascii "u" ∧ p = ascii "p"⟩

theorem methodLibrary_request (method : Bytes) :
    (methodLibrary method).readRequest (requestText method) = some (requestOf method, []) := by
  simp [methodLibrary]

theorem methodLibrary_reads {method : Bytes} (h : IsToken method) :
    ReadsMethod (methodLibrary method) := by
  intro s req rest hs
  by_cases htext : s = requestText method
  · have hsome : (methodLibrary method).readRequest s = some (requestOf method, []) := if_pos htext
    rw [hsome] at hs
    cases hs
    exact ⟨h, _, htext⟩
  · have hnone : (methodLibrary method).readRequest s = none := if_neg htext
    rw [hnone] at hs
    cases hs

theorem nonConnect_answered_connectX :
    Answers501 (methodLibrary (ascii "CONNECTX")) proxyOfU (requestText (ascii "CONNECTX")) ↔
      methodConnect <+: ascii "CONNECTX" :=
  nonConnect_answered_iff (methodLibrary (ascii "CONNECTX")) proxyOfU
    (requestText (ascii "CONNECTX")) (requestText (ascii "CONNECTX")) [] (ascii "u") (ascii "p")
    (requestOf (ascii "CONNECTX")) (methodLibrary_reads ⟨by decide, by decide +kernel⟩) .clear
    (methodLibrary_request _) (by decide) (by decide) (by decide)

/-- `GET` with good credentials, in the clear, is a bad request. -/
theorem get_not_answered :
    ReadsMethod (methodLibrary (ascii "GET")) ∧
      (methodLibrary (ascii "GET")).readRequest (requestText (ascii "GET")) =
        some (requestOf (ascii "GET"), []) ∧
      basicCredentials (requestOf (ascii "GET")).proxyAuthorization =
        some (ascii "u", ascii "p") ∧
      proxyOfU.checkCredentials (ascii "u") (ascii "p") = true ∧ ascii "GET" ≠ methodConnect ∧
      (∃ t, run (step (methodLibrary (ascii "GET")) proxyOfU)
        (initial (requestText (ascii "GET"))) [.detect] = some t ∧
        t.pc = .closed ∧ replies t.log = [proxyError badRequest]) ∧
      ¬Answers501 (methodLibrary (ascii "GET")) proxyOfU (requestText (ascii "GET")) := by
  have hdetect : detectProtocol (requestText (ascii "GET")) = none := by decide
  have hrun : run (step (methodLibrary (ascii "GET")) proxyOfU)
      (initial (requestText (ascii "GET"))) [.detect] =
      some ⟨.closed, requestText (ascii "GET"), [.reply (proxyError badRequest)]⟩ := by
    simp [run, step, initial, detected, hdetect, advance]
  refine ⟨methodLibrary_reads ⟨by decide, by decide +kernel⟩, methodLibrary_request _, by decide,
    by decide, by decide, ⟨_, hrun, rfl, rfl⟩, ?_⟩
  rintro ⟨-, hall⟩
  have hanswer := (hall [.detect] _ (by simp [Undisturbed]) hrun).2 rfl
  have hother : proxyError badRequest ≠ proxyError notImplemented := by decide
  exact hother (List.cons.inj hanswer).1

end SplitProxy.HandleConn
