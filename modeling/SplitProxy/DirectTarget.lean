import SplitProxy.AddressText
import SplitProxy.HTTPConnect
import SplitProxy.Routing
import SplitProxy.Runs
import SplitProxy.Socks5

/-!
# The direct path and its policy

`dialDirectTarget` and the direct part of the UDP relay resolve a target, check
every address and write it out as text, which the dialer reads once more.
-/
namespace SplitProxy.Direct

open GoText NetIP HTTPConnect Routing Socks5 Runs

/-! ## The policy -/

/-- The classes of addresses the direct path is to keep away from. -/
inductive AddrClass where
  | loopback
  | privateUse
  | linkLocal
  | unspecified
  | multicast
  deriving DecidableEq, Repr

def AddrClass.holds : AddrClass → Addr → Bool
  | .loopback, a => a.isLoopback
  | .privateUse, a => a.isPrivate
  | .linkLocal, a => a.isLinkLocalUnicast
  | .unspecified, a => a.isUnspecified
  | .multicast, a => a.isMulticast

def AddrClass.name : AddrClass → Bytes
  | .loopback => ascii "loopback"
  | .privateUse => ascii "private"
  | .linkLocal => ascii "link-local"
  | .unspecified => ascii "unspecified"
  | .multicast => ascii "multicast"

inductive PolicyError where
  | invalid
  | notAllowed (c : AddrClass) (addr : Addr)
  deriving DecidableEq, Repr

def PolicyError.text : PolicyError → Bytes
  | .invalid => ascii "invalid IP address"
  | .notAllowed c addr => c.name ++ ascii " address " ++ addr.string ++ ascii " is not allowed"

/-- The error of `validateDirectTargetIP`, if there is one. -/
def validateDirectTargetIP (addr : Addr) : Option PolicyError :=
  if addr.isValid = false then some .invalid
  else if addr.unmap.isLoopback then some (.notAllowed .loopback addr.unmap)
  else if addr.unmap.isPrivate then some (.notAllowed .privateUse addr.unmap)
  else if addr.unmap.isLinkLocalUnicast then some (.notAllowed .linkLocal addr.unmap)
  else if addr.unmap.isUnspecified then some (.notAllowed .unspecified addr.unmap)
  else if addr.unmap.isMulticast then some (.notAllowed .multicast addr.unmap)
  else none

theorem validate_none {a : Addr} :
    validateDirectTargetIP a = none ↔ a.isValid = true ∧ ∀ c : AddrClass, c.holds a.unmap = false := by
  have hall : (∀ c : AddrClass, c.holds a.unmap = false) ↔ a.unmap.isLoopback = false ∧
      a.unmap.isPrivate = false ∧ a.unmap.isLinkLocalUnicast = false ∧
      a.unmap.isUnspecified = false ∧ a.unmap.isMulticast = false := by
    constructor
    · exact fun h => ⟨h .loopback, h .privateUse, h .linkLocal, h .unspecified, h .multicast⟩
    · rintro ⟨h₁, h₂, h₃, h₄, h₅⟩ c
      cases c <;> assumption
  rw [hall, validateDirectTargetIP]
  cases a.isValid <;> cases a.unmap.isLoopback <;> cases a.unmap.isPrivate <;>
    cases a.unmap.isLinkLocalUnicast <;> cases a.unmap.isUnspecified <;>
    cases a.unmap.isMulticast <;> simp

/-- What the address bits alone say, without mapping and zone. -/
def Barred (a : Addr) : Prop := ∃ c : AddrClass, c.holds a.unmap.withoutZone = true

/-- The unspecified address with a zone, which the library compares with the one without. -/
def zonedUnspecified : Addr → Bool
  | .v6 b z => b = 0 ∧ z ≠ []
  | _ => false

theorem holds_withoutZone {c : AddrClass} (hc : c ≠ .unspecified) (a : Addr) :
    c.holds a.withoutZone = c.holds a := by
  cases a with
  | invalid => rfl
  | v4 b => rfl
  | v6 b z =>
    have hm : (Addr.v6 b []).is4In6 = (Addr.v6 b z).is4In6 := rfl
    cases c with
    | unspecified => exact absurd rfl hc
    | _ =>
      simp only [Addr.withoutZone, AddrClass.holds, Addr.isLoopback, Addr.isPrivate,
        Addr.isLinkLocalUnicast, Addr.isMulticast, Addr.unmap, hm]
      cases (Addr.v6 b z).is4In6 <;> rfl

theorem unspecified_withoutZone (a : Addr) :
    a.withoutZone.isUnspecified = (a.isUnspecified || zonedUnspecified a) := by
  cases a with
  | invalid => rfl
  | v4 b => simp [Addr.withoutZone, zonedUnspecified]
  | v6 b z => by_cases hz : z = [] <;> simp [Addr.withoutZone, Addr.isUnspecified, zonedUnspecified, hz]

/-- An address the policy lets through is barred in one case only. -/
theorem barred_of_validated {a : Addr} (h : validateDirectTargetIP a = none) :
    Barred a ↔ zonedUnspecified a.unmap = true := by
  have hc := (validate_none.mp h).2
  have hu : a.unmap.isUnspecified = false := hc .unspecified
  constructor
  · rintro ⟨c, hb⟩
    by_cases he : c = .unspecified
    · subst he
      rw [AddrClass.holds, unspecified_withoutZone, hu, Bool.false_or] at hb
      exact hb
    · rw [holds_withoutZone he, hc c] at hb
      cases hb
  · intro hz
    refine ⟨.unspecified, ?_⟩
    rw [AddrClass.holds, unspecified_withoutZone, hz, Bool.or_true]

theorem zonedUnspecified_iff {a : Addr} :
    zonedUnspecified a = true ↔ ∃ z, z ≠ [] ∧ a = .v6 0 z := by
  cases a with
  | invalid => simp [zonedUnspecified]
  | v4 b => simp [zonedUnspecified]
  | v6 b z =>
    simp only [zonedUnspecified, decide_eq_true_eq, Addr.v6.injEq]
    constructor
    · rintro ⟨rfl, hz⟩
      exact ⟨z, hz, rfl, rfl⟩
    · rintro ⟨z', hz, rfl, rfl⟩
      exact ⟨rfl, hz⟩

/-- It is its own unmapped form and passes every check. -/
theorem zonedUnspecified_passes {a : Addr} (h : zonedUnspecified a = true) :
    a.unmap = a ∧ validateDirectTargetIP a = none := by
  obtain ⟨z, hz, rfl⟩ := zonedUnspecified_iff.mp h
  have hu : (Addr.v6 0 z).unmap = .v6 0 z := rfl
  have hbits : ∀ c : AddrClass, c ≠ .unspecified → c.holds (.v6 0 []) = false := by
    intro c
    cases c <;> decide
  refine ⟨hu, validate_none.mpr ⟨rfl, fun c => ?_⟩⟩
  rw [hu]
  by_cases hc : c = .unspecified
  · subst hc
    simp [AddrClass.holds, Addr.isUnspecified, hz]
  · rw [← holds_withoutZone hc]
    exact hbits c hc

theorem zonedUnspecified_unmap (a : Addr) : zonedUnspecified a.unmap = zonedUnspecified a := by
  cases a with
  | invalid => rfl
  | v4 b => rfl
  | v6 b z =>
    by_cases hb : b = 0
    · subst hb
      rfl
    · by_cases hm : (Addr.v6 b z).is4In6 = true <;>
        simp only [Addr.unmap, hm, zonedUnspecified, hb, false_and, decide_false, ↓reduceIte,
          Bool.false_eq_true]

/-! ## Texts of addresses and the dialer -/

def zone : Addr → Bytes
  | .v6 _ z => z
  | _ => []

/-- An address whose text comes back from behind brackets. -/
def readable (a : Addr) : Bool := openBracket ∉ zone a ∧ closeBracket ∉ zone a

/-- Brackets in the text of an address are brackets in its zone. -/
theorem bracket_in_text {a : Addr} (h : a.isValid = true) {b : UInt8}
    (hb : b = openBracket ∨ b = closeBracket) :
    (b ∈ a.string ↔ b ∈ zone a) ∧ (b ∈ a.string → colon ∈ a.string) := by
  have hdigit : isDigit b = false ∧ isV6Byte b = false ∧ b ≠ dot ∧ b ≠ percent := by
    rcases hb with rfl | rfl <;> decide
  have hp := parseAddr_string h
  by_cases hcolon : colon ∈ a.string
  · obtain ⟨body, z, groups, hs, hbody, he⟩ := parseAddr_colon hp hcolon
    have hz : zone a = z := by
      rw [he]
      rfl
    have hnot : b ∉ body := fun hm => by
      rw [(parseBody_text hbody).1 b hm] at hdigit
      exact absurd hdigit.2.1 (by decide)
    refine ⟨?_, fun _ => hcolon⟩
    rw [hs, hz, withZone]
    by_cases hz0 : z = []
    · simp [hz0, hnot]
    · simp [hz0, hnot, hdigit.2.2.2]
  · obtain ⟨h4, hd⟩ := parseAddr_no_colon hp hcolon
    obtain ⟨fields, -, he⟩ := Option.map_eq_some_iff.mp h4
    have hnot : b ∉ a.string := fun hm => by
      rcases hd b hm with hdig | hdot
      · rw [hdigit.1] at hdig
        cases hdig
      · exact hdigit.2.2.1 hdot
    have hz : zone a = [] := by
      rw [← he]
      rfl
    simp [hnot, hz]

/-- The text of an address and a port, split again. -/
theorem splitHostPort_address {a : Addr} (h : a.isValid = true) {port : Bytes} (hp : PortText port) :
    splitHostPort (joinHostPort a.string port) =
      if readable a then some (a.string, port) else none := by
  have ho := bracket_in_text h (Or.inl rfl)
  have hc := bracket_in_text h (Or.inr rfl)
  by_cases hr : readable a = true
  · rw [if_pos hr]
    simp only [readable, decide_eq_true_eq] at hr
    exact splitHostPort_joined hp (fun hm => hr.1 (ho.1.mp hm)) (fun hm => hr.2 (hc.1.mp hm))
  · rw [if_neg hr]
    simp only [readable, decide_eq_true_eq, not_and_or, not_not] at hr
    rcases hr with hr | hr
    · exact splitHostPort_bracketed hp (ho.2 (ho.1.mpr hr)) (Or.inl (ho.1.mpr hr))
    · exact splitHostPort_bracketed hp (hc.2 (hc.1.mpr hr)) (Or.inr (hc.1.mpr hr))

/-! ## Resolving a target -/

inductive TargetError where
  | invalidTarget (address : Bytes)
  | emptyHost
  | emptyUDPHost
  | rejected (e : PolicyError)
  | unresolved (host : Bytes)
  | noAddresses (host : Bytes)
  | allBlocked (host : Bytes)
  | unreachable (address : Bytes)
  deriving DecidableEq, Repr

/-- The loop over resolved addresses: each is unmapped, those in error are skipped. -/
def allowed (ips : List Addr) : List Addr :=
  (ips.map Addr.unmap).filter (fun ip => (validateDirectTargetIP ip).isNone)

/-- The body of both resolve functions, for a host without blanks around it. -/
def resolveHost (answers : Answers) (empty : TargetError) (host : Bytes) :
    Except TargetError (List Addr) :=
  if host = [] then .error empty
  else
    match parseAddr host with
    | some ip =>
      match validateDirectTargetIP ip.unmap with
      | some e => .error (.rejected e)
      | none => .ok [ip.unmap]
    | none =>
      match answers host with
      | none => .error (.unresolved host)
      | some ips =>
        if ips = [] then .error (.noAddresses host)
        else if allowed ips = [] then .error (.allBlocked host)
        else .ok (allowed ips)

def resolveDirectTarget (answers : Answers) (address : Bytes) : Except TargetError (List Addr) :=
  match splitHostPort address with
  | none => .error (.invalidTarget address)
  | some (host, _) => resolveHost answers .emptyHost (trimSpace host)

def resolveDirectUDPTargets (answers : Answers) (host : Bytes) : Except TargetError (List Addr) :=
  resolveHost answers .emptyUDPHost (trimSpace host)

/-- The addresses a host stands for, before any of them is checked. -/
def named (answers : Answers) (host : Bytes) : List Addr :=
  if host = [] then []
  else
    match parseAddr host with
    | some ip => [ip]
    | none => (answers host).getD []

theorem mem_allowed {a : Addr} {ips : List Addr} :
    a ∈ allowed ips ↔ (∃ ip ∈ ips, ip.unmap = a) ∧ validateDirectTargetIP a = none := by
  simp only [allowed, List.mem_filter, List.mem_map, Option.isNone_iff_eq_none]

theorem resolveHost_ok {answers : Answers} {empty : TargetError} {host : Bytes} {ips : List Addr} :
    resolveHost answers empty host = .ok ips ↔ ips ≠ [] ∧ ips = allowed (named answers host) := by
  have hiff : ∀ l : List Addr, l ≠ [] ∧ l = allowed [] ↔ False := fun l => by
    constructor
    · exact fun h => h.1 h.2
    · exact False.elim
  rw [resolveHost, named]
  by_cases hh : host = []
  · rw [if_pos hh, if_pos hh, hiff]
    exact ⟨fun h => (nomatch h), False.elim⟩
  · rw [if_neg hh, if_neg hh]
    cases hp : parseAddr host with
    | some ip =>
      have ha : allowed [ip] = if (validateDirectTargetIP ip.unmap).isNone then [ip.unmap] else [] := by
        simp only [allowed, List.map_cons, List.map_nil, List.filter_cons, List.filter_nil]
      simp only [ha]
      cases validateDirectTargetIP ip.unmap with
      | some e =>
        constructor
        · exact fun h => nomatch h
        · exact fun h => absurd h.2 h.1
      | none =>
        simp only [Except.ok.injEq, Option.isNone_none, ↓reduceIte]
        constructor
        · rintro rfl
          exact ⟨List.cons_ne_nil _ _, rfl⟩
        · exact fun h => h.2.symm
    | none =>
      cases hd : answers host with
      | none =>
        simp only [Option.getD_none, hiff]
        exact ⟨fun h => (nomatch h), False.elim⟩
      | some found =>
        simp only [Option.getD_some]
        by_cases hf : found = []
        · rw [if_pos hf, hf, hiff]
          exact ⟨fun h => (nomatch h), False.elim⟩
        · rw [if_neg hf]
          by_cases he : allowed found = []
          · rw [if_pos he, he]
            constructor
            · exact fun h => nomatch h
            · exact fun h => absurd h.2 h.1
          · rw [if_neg he, Except.ok.injEq]
            constructor
            · rintro rfl
              exact ⟨he, rfl⟩
            · exact fun h => h.2.symm

/-! ## The TCP path -/

/-- What the dialer of the library finds outside: the number of a port, the
addresses of a name, and whether a connection comes about. -/
structure Network where
  lookupPort : Bytes → Option Nat
  lookupIP : Bytes → List Addr
  connects : Addr → Nat → Bool

/-- `net.DialTimeout`: the address the connection is open to. A host that is no
address would be looked up, past every check. -/
def dialTimeout (net : Network) (target : Bytes) : Option Addr :=
  match splitHostPort target with
  | none => none
  | some (host, port) =>
    match net.lookupPort port with
    | none => none
    | some n =>
      match parseAddr host with
      | some ip => if net.connects ip n then some ip else none
      | none => (net.lookupIP host).find? (fun ip => net.connects ip n)

/-- The address of the connection and the address it was dialed for. -/
def dialDirectTarget (net : Network) (answers : Answers) (address : Bytes) :
    Except TargetError (Addr × Addr) :=
  match resolveDirectTarget answers address with
  | .error e => .error e
  | .ok ips =>
    match splitHostPort address with
    | none => .error (.invalidTarget address)
    | some (_, port) =>
      match ips.findSome? (fun ip =>
        (dialTimeout net (joinHostPort ip.string port)).map (fun conn => (conn, ip))) with
      | some r => .ok r
      | none => .error (.unreachable address)

/-- The dialer reaches the address whose text it was given, or none. -/
theorem dialTimeout_address (net : Network) {a : Addr} (h : a.isValid = true) {port : Bytes}
    (hp : PortText port) :
    dialTimeout net (joinHostPort a.string port) =
      if readable a = true ∧ ((net.lookupPort port).any fun n => net.connects a n) = true
      then some a else none := by
  rw [dialTimeout, splitHostPort_address h hp]
  by_cases hr : readable a = true
  · simp only [hr, ↓reduceIte, parseAddr_string h, true_and]
    cases net.lookupPort port with
    | none => rfl
    | some n => rfl
  · simp only [hr, ↓reduceIte, Bool.false_eq_true, false_and]

/-- The connection is open to an allowed address of the host, read from its text. -/
theorem dialDirectTarget_ok {net : Network} {answers : Answers} {address : Bytes} {conn ip : Addr}
    (h : dialDirectTarget net answers address = .ok (conn, ip)) :
    ∃ host port, splitHostPort address = some (host, port) ∧
      conn ∈ allowed (named answers (trimSpace host)) ∧ readable conn = true ∧
      (net.lookupPort port).isSome = true := by
  rw [dialDirectTarget, resolveDirectTarget] at h
  cases hs : splitHostPort address with
  | none =>
    rw [hs] at h
    cases h
  | some p =>
    obtain ⟨host, port⟩ := p
    rw [hs] at h
    simp only at h
    cases hr : resolveHost answers .emptyHost (trimSpace host) with
    | error e =>
      rw [hr] at h
      cases h
    | ok ips =>
      rw [hr] at h
      simp only at h
      obtain ⟨-, rfl⟩ := resolveHost_ok.mp hr
      cases hf : (allowed (named answers (trimSpace host))).findSome? (fun ip =>
          (dialTimeout net (joinHostPort ip.string port)).map (fun conn => (conn, ip))) with
      | none =>
        rw [hf] at h
        cases h
      | some r =>
        rw [hf] at h
        cases h
        obtain ⟨a, ha, hd⟩ := List.exists_of_findSome?_eq_some hf
        obtain ⟨c, hc, he⟩ := Option.map_eq_some_iff.mp hd
        cases he
        have hv := (validate_none.mp (mem_allowed.mp ha).2).1
        rw [dialTimeout_address net hv (splitHostPort_some hs).2.2] at hc
        simp only [Option.ite_none_right_eq_some, Option.some.injEq] at hc
        obtain ⟨⟨hread, hport⟩, rfl⟩ := hc
        refine ⟨host, port, rfl, ha, hread, ?_⟩
        cases hl : net.lookupPort port with
        | none =>
          rw [hl] at hport
          cases hport
        | some n => rfl

/-- Any allowed address with a readable text can be the one that answers. -/
theorem dialDirectTarget_reaches {lookupPort : Bytes → Option Nat} {lookupIP : Bytes → List Addr}
    {answers : Answers} {address host port : Bytes} {a : Addr}
    (hs : splitHostPort address = some (host, port)) (hport : (lookupPort port).isSome = true)
    (ha : a ∈ allowed (named answers (trimSpace host))) (hr : readable a = true) :
    dialDirectTarget ⟨lookupPort, lookupIP, fun b _ => b = a⟩ answers address = .ok (a, a) := by
  have hp := (splitHostPort_some hs).2.2
  obtain ⟨n, hn⟩ := Option.isSome_iff_exists.mp hport
  have hok : resolveHost answers .emptyHost (trimSpace host) =
      .ok (allowed (named answers (trimSpace host))) :=
    resolveHost_ok.mpr ⟨List.ne_nil_of_mem ha, rfl⟩
  have hdial : ∀ b ∈ allowed (named answers (trimSpace host)),
      (dialTimeout ⟨lookupPort, lookupIP, fun b _ => b = a⟩ (joinHostPort b.string port)).map
        (fun conn => (conn, b)) = if b = a then some (a, a) else none := by
    intro b hb
    have hv := (validate_none.mp (mem_allowed.mp hb).2).1
    rw [dialTimeout_address _ hv hp]
    simp only [hn, Option.any_some, decide_eq_true_eq]
    by_cases he : b = a
    · subst he
      simp [hr]
    · simp [he]
  have hfind : ∀ l : List Addr, (∀ b ∈ l, b ∈ allowed (named answers (trimSpace host))) → a ∈ l →
      l.findSome? (fun ip => (dialTimeout ⟨lookupPort, lookupIP, fun b _ => b = a⟩
        (joinHostPort ip.string port)).map (fun conn => (conn, ip))) = some (a, a) := by
    intro l hl
    induction l with
    | nil => exact fun h => absurd h List.not_mem_nil
    | cons b l ih =>
      intro hm
      rw [List.findSome?_cons, hdial b (hl b List.mem_cons_self)]
      by_cases he : b = a
      · rw [if_pos he]
      · rw [if_neg he]
        exact ih (fun c hc => hl c (List.mem_cons_of_mem b hc))
          ((List.mem_cons.mp hm).resolve_left fun h => he h.symm)
  rw [dialDirectTarget, resolveDirectTarget, hs]
  simp only [hok, hfind _ (fun b hb => hb) ha]

end SplitProxy.Direct
