import SplitProxy.DirectTarget

/-!
# The direct path reaches public addresses

The relay loop of one UDP association keeps a session for each concrete target,
which the reading goroutine of a session may close at any time. Beside the
sessions a ghost list holds every address a datagram was sent to.
-/
namespace SplitProxy.Direct

open GoText NetIP HTTPConnect Routing Socks5 Runs

/-- An address the policy lets through though its bits are barred, and whose text can be dialed. -/
def slips (a : Addr) : Bool := zonedUnspecified a && readable a

theorem slips_allowed {a : Addr} (h : slips a = true) {ips : List Addr} : a ∈ allowed ips ↔ a ∈ ips := by
  have hz : zonedUnspecified a = true := (Bool.and_eq_true _ _ ▸ h).1
  obtain ⟨hu, hv⟩ := zonedUnspecified_passes hz
  rw [mem_allowed]
  constructor
  · rintro ⟨⟨ip, hip, he⟩, -⟩
    have hzip : zonedUnspecified ip = true := by rw [← zonedUnspecified_unmap, he, hz]
    rw [← he, (zonedUnspecified_passes hzip).1]
    exact hip
  · exact fun hm => ⟨⟨a, hm, hu⟩, hv⟩

theorem barred_allowed {a : Addr} {ips : List Addr} (ha : a ∈ allowed ips) (hr : readable a = true) :
    Barred a ↔ slips a = true := by
  obtain ⟨⟨ip, -, he⟩, hv⟩ := mem_allowed.mp ha
  rw [barred_of_validated hv, zonedUnspecified_unmap, slips, hr, Bool.and_true]

/-! ## TCP -/

/-- The target names an address that slips, and a port that exists. -/
def Exposed (lookupPort : Bytes → Option Nat) (answers : Answers) (address : Bytes) : Prop :=
  ∃ host port, splitHostPort address = some (host, port) ∧ (lookupPort port).isSome = true ∧
    ∃ a ∈ named answers (trimSpace host), slips a = true

theorem dial_iff (lookupPort : Bytes → Option Nat) (answers : Answers) (address : Bytes) :
    (∀ lookupIP connects conn ip,
      dialDirectTarget ⟨lookupPort, lookupIP, connects⟩ answers address = .ok (conn, ip) →
      ¬Barred conn) ↔ ¬Exposed lookupPort answers address := by
  constructor
  · rintro h ⟨host, port, hs, hport, a, ha, hslips⟩
    have hr : readable a = true := (Bool.and_eq_true _ _ ▸ hslips).2
    have hmem := (slips_allowed hslips).mpr ha
    exact h (fun _ => []) _ a a (dialDirectTarget_reaches hs hport hmem hr)
      ((barred_allowed hmem hr).mpr hslips)
  · intro h lookupIP connects conn ip hd hb
    obtain ⟨host, port, hs, hmem, hr, hport⟩ := dialDirectTarget_ok hd
    have hslips := (barred_allowed hmem hr).mp hb
    exact h ⟨host, port, hs, hport, conn, (slips_allowed hslips).mp hmem, hslips⟩

/-! ## UDP -/

structure DirectSession where
  conn : Addr
  port : Nat
  target : Bytes
  closed : Bool
  deriving DecidableEq

/-- Where the relay loop stands: before the next datagram, before the next allowed
address, past the first look into `directSessions`, holding a session. -/
inductive Pc where
  | reading
  | trying (packet : SOCKS5UDPPacket) (ips : List Addr)
  | opening (packet : SOCKS5UDPPacket) (target : Bytes) (ips : List Addr)
  | sending (packet : SOCKS5UDPPacket) (target : Bytes) (id : Nat) (ips : List Addr)

/-- One association; a session's number is its place in `sessions`. -/
structure Association where
  pc : Pc
  sessions : List DirectSession
  directSessions : Bytes → Option Nat
  sent : List Addr

/-- An association without a session so far. -/
def fresh (pc : Pc) : Association := ⟨pc, [], fun _ => none, []⟩

def start : Association := fresh .reading

/-- A datagram, and what DNS and the routes say while it is handled. -/
structure Datagram where
  data : Bytes
  answers : Answers
  routes : Option RouteCache

inductive Event where
  | datagram (d : Datagram)
  | pick
  | dial (ok : Bool)
  | send (ok : Bool)
  | readerCloses (id : Nat)
  | readerForgets (id : Nat)

/-- The session under a target that is not closed. -/
def live (s : Association) (target : Bytes) : Option Nat :=
  (s.directSessions target).filter (fun id => (s.sessions[id]?).any fun x => !x.closed)

def close (sessions : List DirectSession) (id : Nat) : List DirectSession :=
  sessions.modify id (fun x => { x with closed := true })

/-- `delete(directSessions, key)` if the key still leads to this session. -/
def forget (m : Bytes → Option Nat) (target : Bytes) (id : Nat) : Bytes → Option Nat :=
  if m target = some id then Function.update m target none else m

/-- The address and port `getOrCreateDirectSession` connects to for a target. -/
def openTarget (target : Bytes) : Option (Addr × Nat) :=
  match splitHostPort target with
  | none => none
  | some (host, portString) =>
    match parseAddr host with
    | none => none
    | some targetIP =>
      match validateDirectTargetIP targetIP.unmap with
      | some _ => none
      | none =>
        match atoi portString with
        | none => none
        | some port =>
          -- net.IP(targetIP.AsSlice()) has no zone
          if port < 1 ∨ 65535 < port then none else some (targetIP.unmap.withoutZone, port.toNat)

/-- The steps of the relay loop, and of the reading goroutines, for the direct route. -/
def step (routeDirect : Route) (s : Association) : Event → Option Association
  | .datagram d =>
    match s.pc with
    | .reading =>
      match parseSOCKS5UDPRequest d.data with
      | none => some s
      | some packet =>
        if resolveRoute routeDirect d.answers d.routes packet.host = routeDirect then
          match resolveDirectUDPTargets d.answers packet.host with
          | .error _ => some s
          | .ok ips => some { s with pc := .trying packet ips }
        else some s
    | _ => none
  | .pick =>
    match s.pc with
    | .trying _ [] => some { s with pc := .reading }
    | .trying packet (ip :: ips) =>
      match live s (joinHostPort ip.string (itoa packet.port)) with
      | some id =>
        some { s with pc := .sending packet (joinHostPort ip.string (itoa packet.port)) id ips }
      | none =>
        some { s with
          pc := .opening packet (joinHostPort ip.string (itoa packet.port)) ips
          directSessions := Function.update s.directSessions
            (joinHostPort ip.string (itoa packet.port)) none }
    | _ => none
  | .dial ok =>
    match s.pc with
    | .opening packet target ips =>
      match openTarget target with
      | none => some { s with pc := .trying packet ips }
      | some (addr, port) =>
        if ok then
          match live s target with
          | some id => some { s with pc := .sending packet target id ips }
          | none =>
            some { s with
              pc := .sending packet target s.sessions.length ips
              sessions := s.sessions ++ [⟨addr, port, target, false⟩]
              directSessions := Function.update s.directSessions target (some s.sessions.length) }
        else some { s with pc := .trying packet ips }
    | _ => none
  | .send ok =>
    match s.pc with
    | .sending packet target id ips =>
      match s.sessions[id]? with
      | none => none
      | some x =>
        if ok ∧ x.closed = false then some { s with pc := .reading, sent := x.conn :: s.sent }
        else
          some { s with
            pc := .trying packet ips
            sessions := close s.sessions id
            directSessions := forget s.directSessions target id }
    | _ => none
  | .readerCloses id =>
    if id < s.sessions.length then some { s with sessions := close s.sessions id } else none
  | .readerForgets id =>
    match s.sessions[id]? with
    | none => none
    | some x =>
      if x.closed then some { s with directSessions := forget s.directSessions x.target id }
      else none

/-! ### What a session may be connected to -/

theorem openTarget_address {a : Addr} (hu : a.unmap = a) (hv : validateDirectTargetIP a = none)
    {n : Nat} (hn : n < 0x10000) :
    openTarget (joinHostPort a.string (itoa n)) =
      if readable a = true ∧ 0 < n then some (a.withoutZone, n) else none := by
  have hvalid := (validate_none.mp hv).1
  have hatoi : atoi (itoa n) = some (n : Int) := atoi_itoa (Nat.lt_trans hn (by decide))
  rw [openTarget, splitHostPort_address hvalid (portText_itoa n)]
  by_cases hr : readable a = true
  · simp only [hr, ↓reduceIte, parseAddr_string hvalid, hu, hv, hatoi, true_and, Int.toNat_natCast]
    by_cases h0 : 0 < n
    · rw [if_neg (by omega), if_pos h0]
    · rw [if_pos (by omega), if_neg h0]
  · simp only [hr, ↓reduceIte, Bool.false_eq_true, false_and]

theorem barred_withoutZone (a : Addr) : Barred a.withoutZone ↔ Barred a := by
  have h : a.withoutZone.unmap.withoutZone = a.unmap.withoutZone := by
    cases a with
    | invalid => rfl
    | v4 b => rfl
    | v6 b z =>
      have hm : (Addr.v6 b []).is4In6 = (Addr.v6 b z).is4In6 := rfl
      simp only [Addr.withoutZone, Addr.unmap, hm]
      cases (Addr.v6 b z).is4In6 <;> rfl
  rw [Barred, Barred, h]

/-- An address of the list is checked, and does not slip through to a port. -/
def Checked (port : Nat) (ips : List Addr) : Prop :=
  ∀ ip ∈ ips, ip.unmap = ip ∧ validateDirectTargetIP ip = none ∧ (port = 0 ∨ slips ip = false)

/-- What is still ahead of the relay loop is checked. -/
def Pc.Sound : Pc → Prop
  | .reading => True
  | .trying packet ips => packet.port < 0x10000 ∧ Checked packet.port ips
  | .opening packet target ips => packet.port < 0x10000 ∧ Checked packet.port ips ∧
      ∀ addr port, openTarget target = some (addr, port) → ¬Barred addr
  | .sending packet _ _ ips => packet.port < 0x10000 ∧ Checked packet.port ips

structure Guarded (s : Association) : Prop where
  pc : s.pc.Sound
  sessions : ∀ x ∈ s.sessions, ¬Barred x.conn
  sent : ∀ a ∈ s.sent, ¬Barred a

/-- The datagram takes the direct route to an address that slips. -/
def ExposedUDP (routeDirect : Route) (d : Datagram) : Prop :=
  ∃ packet, parseSOCKS5UDPRequest d.data = some packet ∧
    resolveRoute routeDirect d.answers d.routes packet.host = routeDirect ∧ 0 < packet.port ∧
    ∃ a ∈ named d.answers (trimSpace packet.host), slips a = true

theorem checked_allowed {port : Nat} {ips : List Addr}
    (h : ∀ a ∈ ips, slips a = true → port = 0) : Checked port (allowed ips) := by
  intro a ha
  obtain ⟨⟨ip, -, he⟩, hv⟩ := mem_allowed.mp ha
  refine ⟨by rw [← he, Addr.unmap_unmap], hv, ?_⟩
  by_cases hs : slips a = true
  · exact Or.inl (h a ((slips_allowed hs).mp ha) hs)
  · exact Or.inr (by simpa using hs)

/-- A session for a checked address is connected to one that is not barred. -/
theorem opened_not_barred {port : Nat} {ip : Addr} {ips : List Addr} (hp : port < 0x10000)
    (h : Checked port (ip :: ips)) {addr : Addr} {n : Nat}
    (ho : openTarget (joinHostPort ip.string (itoa port)) = some (addr, n)) : ¬Barred addr := by
  obtain ⟨hu, hv, hs⟩ := h ip List.mem_cons_self
  rw [openTarget_address hu hv hp] at ho
  simp only [Option.ite_none_right_eq_some, Option.some.injEq, Prod.mk.injEq] at ho
  obtain ⟨⟨hr, h0⟩, rfl, -⟩ := ho
  have hs' : slips ip = false := hs.resolve_left (by omega)
  rw [barred_withoutZone, barred_of_validated hv, hu]
  intro hz
  rw [slips, hz, hr] at hs'
  cases hs'

theorem conn_close {sessions : List DirectSession} {id : Nat}
    (h : ∀ x ∈ sessions, ¬Barred x.conn) : ∀ x ∈ close sessions id, ¬Barred x.conn := by
  intro x hx
  obtain ⟨i, hi⟩ := List.mem_iff_getElem?.mp hx
  rw [close, List.getElem?_modify] at hi
  obtain ⟨y, hy, he⟩ := Option.map_eq_some_iff.mp hi
  have hb := h y (List.mem_of_getElem? hy)
  rw [← he]
  split <;> exact hb

theorem Checked.tail {port : Nat} {ip : Addr} {ips : List Addr} (h : Checked port (ip :: ips)) :
    Checked port ips := fun a ha => h a (List.mem_cons_of_mem ip ha)

theorem guarded_step {routeDirect : Route} {s t : Association} {e : Event} (hs : Guarded s)
    (he : ∀ d, e = .datagram d → ¬ExposedUDP routeDirect d) (h : step routeDirect s e = some t) :
    Guarded t := by
  obtain ⟨hpc, hsessions, hsent⟩ := hs
  cases e with
  | datagram d =>
    simp only [step] at h
    split at h
    · split at h
      · cases h
        exact ⟨hpc, hsessions, hsent⟩
      · rename_i packet hparse
        split at h
        · rename_i hroute
          split at h
          · cases h
            exact ⟨hpc, hsessions, hsent⟩
          · rename_i ips hips
            cases h
            obtain ⟨-, rfl⟩ := resolveHost_ok.mp hips
            refine ⟨⟨port_lt hparse, checked_allowed fun a ha hslips => ?_⟩, hsessions, hsent⟩
            by_contra h0
            exact he d rfl ⟨packet, hparse, hroute, Nat.pos_of_ne_zero h0, a, ha, hslips⟩
        · cases h
          exact ⟨hpc, hsessions, hsent⟩
    · cases h
  | pick =>
    simp only [step] at h
    split at h
    · cases h
      exact ⟨trivial, hsessions, hsent⟩
    · rename_i packet ip ips hp
      rw [hp] at hpc
      obtain ⟨hport, hchecked⟩ := hpc
      split at h
      · cases h
        exact ⟨⟨hport, hchecked.tail⟩, hsessions, hsent⟩
      · cases h
        refine ⟨⟨hport, hchecked.tail, fun addr port ho => ?_⟩, hsessions, hsent⟩
        exact opened_not_barred hport hchecked ho
    · cases h
  | dial ok =>
    simp only [step] at h
    split at h
    · rename_i packet target ips hp
      rw [hp] at hpc
      obtain ⟨hport, hchecked, hopen⟩ := hpc
      split at h
      · cases h
        exact ⟨⟨hport, hchecked⟩, hsessions, hsent⟩
      · rename_i addr port ho
        split at h
        · split at h
          · cases h
            exact ⟨⟨hport, hchecked⟩, hsessions, hsent⟩
          · cases h
            refine ⟨⟨hport, hchecked⟩, fun x hx => ?_, hsent⟩
            rcases List.mem_append.mp hx with hx | hx
            · exact hsessions x hx
            · rw [List.mem_singleton.mp hx]
              exact hopen addr port ho
        · cases h
          exact ⟨⟨hport, hchecked⟩, hsessions, hsent⟩
    · cases h
  | send ok =>
    simp only [step] at h
    split at h
    · rename_i packet target id ips hp
      rw [hp] at hpc
      split at h
      · cases h
      · rename_i x hx
        split at h
        · cases h
          refine ⟨trivial, hsessions, fun a ha => ?_⟩
          rcases List.mem_cons.mp ha with rfl | ha
          · exact hsessions x (List.mem_of_getElem? hx)
          · exact hsent a ha
        · cases h
          exact ⟨hpc, conn_close hsessions, hsent⟩
    · cases h
  | readerCloses id =>
    simp only [step] at h
    split at h
    · cases h
      exact ⟨hpc, conn_close hsessions, hsent⟩
    · cases h
  | readerForgets id =>
    simp only [step] at h
    split at h
    · cases h
    · split at h
      · cases h
        exact ⟨hpc, hsessions, hsent⟩
      · cases h

theorem guarded_start : Guarded start :=
  ⟨trivial, fun _ hx => absurd hx List.not_mem_nil, fun _ ha => absurd ha List.not_mem_nil⟩

/-- Addresses before the one that answers are tried and given up. -/
theorem tries {routeDirect : Route} {packet : SOCKS5UDPPacket} {ips rest : List Addr} :
    ∃ es, (∀ d, Event.datagram d ∉ es) ∧
      run (step routeDirect) (fresh (.trying packet (ips ++ rest))) es =
        some (fresh (.trying packet rest)) := by
  induction ips with
  | nil => exact ⟨[], fun d => List.not_mem_nil, rfl⟩
  | cons ip ips ih =>
    obtain ⟨es, hno, hr⟩ := ih
    refine ⟨.pick :: .dial false :: es, fun d hd => ?_, ?_⟩
    · rcases List.mem_cons.mp hd with hd | hd
      · cases hd
      · rcases List.mem_cons.mp hd with hd | hd
        · cases hd
        · exact hno d hd
    · have hnone : Function.update (fun _ => none : Bytes → Option Nat)
          (joinHostPort ip.string (itoa packet.port)) none = fun _ => none :=
        Function.update_eq_self _ _
      have hpick : step routeDirect (fresh (.trying packet (ip :: ips ++ rest))) .pick =
          some (fresh (.opening packet (joinHostPort ip.string (itoa packet.port)) (ips ++ rest))) := by
        simp only [List.cons_append, step, fresh, live, Option.filter_none, hnone]
      have hdial : step routeDirect
          (fresh (.opening packet (joinHostPort ip.string (itoa packet.port)) (ips ++ rest)))
          (.dial false) = some (fresh (.trying packet (ips ++ rest))) := by
        simp only [step, fresh]
        split <;> rfl
      rw [run_cons, hpick, Option.bind_some, run_cons, hdial]
      exact hr

/-- A datagram to an address that slips can be the first one sent. -/
theorem exposed_sent {routeDirect : Route} {d : Datagram} (h : ExposedUDP routeDirect d) :
    ∃ es s a, run (step routeDirect) start es = some s ∧ (∀ d', .datagram d' ∈ es → d' = d) ∧
      a ∈ s.sent ∧ Barred a := by
  obtain ⟨packet, hparse, hroute, h0, a, ha, hslips⟩ := h
  have hr : readable a = true := (Bool.and_eq_true _ _ ▸ hslips).2
  have hmem := (slips_allowed hslips).mpr ha
  obtain ⟨⟨ip, -, hu⟩, hv⟩ := mem_allowed.mp hmem
  have hua : a.unmap = a := by rw [← hu, Addr.unmap_unmap]
  obtain ⟨ips, rest, hsplit⟩ := List.append_of_mem hmem
  have hres : resolveDirectUDPTargets d.answers packet.host = .ok (ips ++ a :: rest) :=
    resolveHost_ok.mpr ⟨by simp, hsplit.symm⟩
  have hfirst : step routeDirect start (.datagram d) =
      some (fresh (.trying packet (ips ++ a :: rest))) := by
    simp only [step, start, fresh, hparse, hroute, hres, ↓reduceIte]
  obtain ⟨es, hno, hes⟩ := @tries routeDirect packet ips (a :: rest)
  have hopen := openTarget_address hua hv (port_lt hparse)
  rw [if_pos ⟨hr, h0⟩] at hopen
  have hlast : ∃ s, run (step routeDirect) (fresh (.trying packet (a :: rest)))
      [.pick, .dial true, .send true] = some s ∧ s.sent = [a.withoutZone] := by
    simp only [run_cons, run_nil, step, fresh, live, Option.filter_none, Option.bind_some, hopen,
      Function.update_self, ↓reduceIte, List.nil_append, List.length_nil, List.getElem?_cons_zero,
      and_self, Option.some.injEq, exists_eq_left']
  obtain ⟨s, hs, hsent⟩ := hlast
  refine ⟨.datagram d :: (es ++ [.pick, .dial true, .send true]), s, a.withoutZone, ?_, ?_, ?_, ?_⟩
  · rw [run_cons, hfirst]
    exact run_join hes hs
  · intro d' hd
    rcases List.mem_cons.mp hd with hd | hd
    · cases hd
      rfl
    · rcases List.mem_append.mp hd with hd | hd
      · exact absurd hd (hno d')
      · simp at hd
  · rw [hsent]
    exact List.mem_singleton_self _
  · rw [barred_withoutZone]
    exact (barred_allowed hmem hr).mpr hslips

/-- Both paths keep to public addresses exactly as long as nothing they are given
names the unspecified address with a zone. -/
theorem public_iff_not_exposed (lookupPort : Bytes → Option Nat) (answers : Answers) (address : Bytes)
    (routeDirect : Route) (received : Datagram → Prop) :
    ((∀ lookupIP connects conn ip,
      dialDirectTarget ⟨lookupPort, lookupIP, connects⟩ answers address = .ok (conn, ip) →
      ¬Barred conn) ↔ ¬Exposed lookupPort answers address) ∧
    ((∀ es s, run (step routeDirect) start es = some s → (∀ d, .datagram d ∈ es → received d) →
      ∀ a ∈ s.sent, ¬Barred a) ↔ ∀ d, received d → ¬ExposedUDP routeDirect d) := by
  refine ⟨dial_iff lookupPort answers address, ?_, ?_⟩
  · intro h d hd hex
    obtain ⟨es, s, a, hr, hes, ha, hb⟩ := exposed_sent hex
    exact h es s hr (fun d' hd' => hes d' hd' ▸ hd) a ha hb
  · intro h es s hr hes
    have hmeets : Meets (step routeDirect) (fun _ e => ∀ d, e = .datagram d → ¬ExposedUDP routeDirect d)
        start es :=
      meets_of_mem fun e he _ d hed => h d (hes d (hed ▸ he))
    exact (run_invariant (fun s e t hs hc ht => guarded_step hs hc ht) guarded_start hmeets hr).sent

/-- `[::%z]:80` is dialed, and `::` is what the dialer connects to. -/
theorem zone_hides_unspecified :
    ¬∀ net answers address conn ip, dialDirectTarget net answers address = .ok (conn, ip) →
      ¬Barred conn := by
  intro h
  refine h ⟨fun _ => some 80, fun _ => [], fun _ _ => true⟩ (fun _ => none)
    (ascii "[::%z]:80") (.v6 0 (ascii "z")) (.v6 0 (ascii "z")) (by decide +kernel) ?_
  exact ⟨.unspecified, by decide⟩

end SplitProxy.Direct
