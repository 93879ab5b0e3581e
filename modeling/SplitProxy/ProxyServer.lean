import SplitProxy.ReadLimits
import SplitProxy.Tally
import Mathlib.Tactic.Ring

/-!
# The accept loop and its gauges

`main` of the proxy: a connection takes one of the places of `connSem` or is
turned away, its handler runs as `HandleConn` says, and gives the place back. The
metrics are counted where the source counts them.
-/
namespace SplitProxy.ProxyServer

open Runs GoText HandleConn
open MessageSize (newActions newActions_advance)

/-- How far a handler's goroutine is: in `handleConn`, past the deferred `Dec` of
its user, past `activeConnections.Dec()`, past `<-connSem`. -/
inductive Stage where
  | handling
  | untracked
  | uncounted
  | released
  deriving DecidableEq, Repr

structure Connection where
  clientIP : Bytes
  state : HandleConn.State
  stage : Stage

/-- Where the accept loop stands. -/
inductive Pc where
  | accepting
  | deciding (clientIP stream : Bytes)
  | admitted (clientIP stream : Bytes)
  deriving DecidableEq, Repr

structure State where
  pc : Pc
  /-- what is in `connSem` -/
  connSem : Nat
  connections : List Connection
  acceptedConnections : Nat
  rejectedConnections : Nat
  activeConnections : Int
  userActiveConnections : Bytes × Bytes → Int
  activeUDPSessions : Int

def initial : State := ⟨.accepting, 0, [], 0, 0, 0, fun _ => 0, 0⟩

inductive Event where
  | accept (clientIP stream : Bytes)
  | takePlace
  | reject
  | spawn
  | act (i : Nat) (e : HandleConn.Event)
  | untrack (i : Nat)
  | uncount (i : Nat)
  | release (i : Nat)

/-- `userActiveConnections.WithLabelValues(username, ip)`, by one up or down. -/
def track (ip : Bytes) (d : Int) (gauge : Bytes × Bytes → Int) : Action → Bytes × Bytes → Int
  | .tracked username => Function.update gauge (username, ip) (gauge (username, ip) + d)
  | _ => gauge

/-- The connection is in `handleSOCKS5UDPAssociate`. -/
def inUDP : HandleConn.Pc → Nat
  | .associating _ | .listening _ _ | .relay _ | .forwarding _ _ _ => 1
  | _ => 0

def step (L : Library) (P : Proxy) (maxConnections : Nat) (s : State) : Event → Option State
  | .accept clientIP stream =>
    if s.pc = .accepting then
      some { s with
        pc := .deciding clientIP stream
        acceptedConnections := s.acceptedConnections + 1 }
    else none
  | .takePlace =>
    match s.pc with
    | .deciding clientIP stream =>
      if s.connSem < maxConnections then
        some { s with pc := .admitted clientIP stream, connSem := s.connSem + 1 }
      else none
    | _ => none
  | .reject =>
    match s.pc with
    | .deciding _ _ =>
      if s.connSem < maxConnections then none
      else some { s with pc := .accepting, rejectedConnections := s.rejectedConnections + 1 }
    | _ => none
  | .spawn =>
    match s.pc with
    | .admitted clientIP stream =>
      some { s with
        pc := .accepting
        activeConnections := s.activeConnections + 1
        connections := s.connections ++ [⟨clientIP, HandleConn.initial stream, .handling⟩] }
    | _ => none
  | .act i e =>
    (s.connections[i]?).bind fun c =>
      if c.stage = .handling then
        (HandleConn.step L P c.state e).map fun t =>
          { s with
            connections := s.connections.set i { c with state := t }
            userActiveConnections := (newActions c.state t).foldl (track c.clientIP 1)
              s.userActiveConnections
            activeUDPSessions := s.activeUDPSessions + inUDP t.pc - inUDP c.state.pc }
      else none
  | .untrack i =>
    (s.connections[i]?).bind fun c =>
      if c.stage = .handling ∧ c.state.pc = .closed then
        some { s with
          connections := s.connections.set i { c with stage := .untracked }
          userActiveConnections := c.state.log.foldl (track c.clientIP (-1)) s.userActiveConnections }
      else none
  | .uncount i =>
    (s.connections[i]?).bind fun c =>
      if c.stage = .untracked then
        some { s with
          connections := s.connections.set i { c with stage := .uncounted }
          activeConnections := s.activeConnections - 1 }
      else none
  | .release i =>
    (s.connections[i]?).bind fun c =>
      if c.stage = .uncounted then
        some { s with
          connections := s.connections.set i { c with stage := .released }
          connSem := s.connSem - 1 }
      else none

/-! ## Who a connection is counted for -/

def trackedUser : Action → Option Bytes
  | .tracked username => some username
  | _ => none

/-- The names a connection has been counted under. -/
def users (log : List Action) : List Bytes := log.filterMap trackedUser

theorem users_append (l m : List Action) : users (l ++ m) = users l ++ users m :=
  List.filterMap_append

theorem users_traffic (username : Bytes) (d : Direction) (path : Path) (n : Nat) :
    users (recordTraffic username d path n) = [] := by
  unfold recordTraffic
  split <;> rfl

/-- The name a handler works under. -/
def userOf : HandleConn.Pc → List Bytes
  | .accepted | .handshaking | .secured | .http | .authorizing _ | .socks5 | .negotiating
  | .closed => []
  | .serving _ u | .commanding u | .connecting _ u _ _ | .waiting _ u _ | .connected _ u _ _
  | .tunnel u _ _ | .associating u | .listening u _ | .relay u | .forwarding u _ _ => [u]

/-- A connection is counted once, under the name it works under, when it has one. -/
def Counted (s : HandleConn.State) : Prop :=
  if s.pc = .closed then (users s.log).length ≤ 1 else users s.log = userOf s.pc

theorem counted_initial (stream : Bytes) : Counted (HandleConn.initial stream) := rfl

section Handler

variable {L : Library} {P : Proxy} {s t : HandleConn.State} {e : HandleConn.Event}

/-- The connection is counted rightly after the step, which adds to the log. -/
def Goes (s t : HandleConn.State) : Prop := Counted t ∧ t.log = newActions s t ++ s.log

theorem log_advance {s' : HandleConn.State} (hlog : s'.log = s.log) (pc : HandleConn.Pc)
    (actions : List Action) :
    (advance s' pc actions).log = newActions s (advance s' pc actions) ++ s.log := by
  rw [newActions_advance hlog]
  simp only [advance, hlog]

/-- Going on at a place of the same name, without being counted again. -/
theorem Counted.go (h : Counted s) (hopen : s.pc ≠ .closed) {s' : HandleConn.State}
    (hlog : s'.log = s.log) {pc : HandleConn.Pc} (hpc : pc = .closed ∨ userOf pc = userOf s.pc)
    {actions : List Action} (hactions : users actions = []) : Goes s (advance s' pc actions) := by
  refine ⟨?_, log_advance hlog pc actions⟩
  unfold Counted at h ⊢
  rw [if_neg hopen] at h
  have hlen : (userOf s.pc).length ≤ 1 := by cases s.pc <;> simp [userOf]
  have husers : users (actions ++ s.log) = userOf s.pc := by
    rw [users_append, hactions, List.nil_append, h]
  simp only [advance, hlog]
  rw [husers]
  split
  · exact hlen
  · rename_i hno
    exact (hpc.resolve_left hno).symm

/-- Being counted, before which there was no name. -/
theorem Counted.track (h : Counted s) (hopen : s.pc ≠ .closed) (hnone : userOf s.pc = [])
    {s' : HandleConn.State} (hlog : s'.log = s.log) {pc : HandleConn.Pc} {actions : List Action}
    (hclosed : pc ≠ .closed) (hactions : users actions = userOf pc) :
    Goes s (advance s' pc actions) := by
  refine ⟨?_, log_advance hlog pc actions⟩
  unfold Counted at h ⊢
  rw [if_neg hopen, hnone] at h
  simp only [advance, hlog]
  rw [if_neg hclosed, users_append, h, List.append_nil, hactions]

theorem goes_detected (h : Counted s) {inTLS : Bool} (hopen : s.pc ≠ .closed)
    (hnone : userOf s.pc = []) : Goes s (detected s inTLS) := by
  unfold detected
  split
  · exact h.go hopen rfl (Or.inr (by rw [hnone]; rfl)) rfl
  · exact h.go hopen rfl (Or.inr (by rw [hnone]; rfl)) rfl
  · split
    · exact h.go hopen rfl (Or.inl rfl) rfl
    · exact h.go hopen rfl (Or.inr (by rw [hnone]; rfl)) rfl
  · refine h.go hopen rfl (Or.inl rfl) ?_
    split <;> rfl

theorem goes_served (h : Counted s) {req : HTTPConnect.Request} {username : Bytes}
    {dns : Routing.Answers} {routes : Option Routing.RouteCache}
    (hpc : s.pc = .serving req username) : Goes s (served P s req username dns routes) := by
  have hopen : s.pc ≠ .closed := by simp [hpc]
  have huser : userOf s.pc = [username] := by rw [hpc]; rfl
  unfold served
  split
  · split
    · exact h.go hopen rfl (Or.inl rfl) rfl
    · exact h.go hopen rfl (Or.inr (by rw [huser]; rfl)) rfl
  · exact h.go hopen rfl (Or.inl rfl) rfl

theorem goes_authenticated (h : Counted s) {ok : Bool} (hpc : s.pc = .negotiating) :
    Goes s (authenticated P s ok) := by
  have hopen : s.pc ≠ .closed := by simp [hpc]
  have hnone : userOf s.pc = [] := by rw [hpc]; rfl
  unfold authenticated
  split
  · exact h.go hopen rfl (Or.inl rfl) rfl
  · split
    · split
      · exact h.track hopen hnone rfl (by simp) rfl
      · exact h.go hopen rfl (Or.inl rfl) rfl
    · exact h.go hopen rfl (Or.inl rfl) rfl

theorem goes_commanded (h : Counted s) {username : Bytes} {dns : Routing.Answers}
    {routes : Option Routing.RouteCache} (hpc : s.pc = .commanding username) :
    Goes s (commanded P s username dns routes) := by
  have hopen : s.pc ≠ .closed := by simp [hpc]
  have huser : userOf s.pc = [username] := by rw [hpc]; rfl
  unfold commanded
  split
  · exact h.go hopen rfl (Or.inl rfl) rfl
  · split
    · exact h.go hopen rfl (Or.inr (by rw [huser]; rfl)) rfl
    · split
      · exact h.go hopen rfl (Or.inr (by rw [huser]; rfl)) rfl
      · exact h.go hopen rfl (Or.inl rfl) rfl

theorem goes_step (h : Counted s) (hs : HandleConn.step L P s e = some t) : Goes s t := by
  cases step_move hs with
  | detect hpc | detectInTLS hpc => exact goes_detected h (by simp [hpc]) (by rw [hpc]; rfl)
  | serve hpc => exact goes_served h hpc
  | authenticate hpc => exact goes_authenticated h hpc
  | command hpc => exact goes_commanded h hpc
  | authorized hpc hauth hok => exact h.track (by simp [hpc]) (by rw [hpc]; rfl) rfl (by simp) rfl
  | malformed hpc hno =>
    refine ⟨h, ?_⟩
    unfold newActions
    rw [Nat.sub_self, List.take_zero, List.nil_append]
  | transfer hpc => exact h.go (by simp [hpc]) rfl (Or.inr rfl) (users_traffic _ _ _ _)
  | sendUDP hpc hn => exact h.go (by simp [hpc]) rfl (Or.inr rfl) (users_traffic _ _ _ _)
  | answerUDP hpc =>
    refine h.go ?_ rfl (Or.inr rfl) (users_traffic _ _ _ _)
    rcases hpc with hpc | ⟨packet, route, hpc⟩ <;> simp [hpc]
  | dialUDP hpc hroute => exact h.go (by simp [hpc]) rfl (Or.inr rfl) rfl
  | greet hpc hread hmethod | dial hpc hroute | openSession hpc hroute | waitConnected hpc
  | onConnected hpc | associate hpc hip | openUDP hpc hroute =>
    refine h.go (by simp [hpc]) rfl ?_ rfl
    split
    · exact Or.inr (by simp [hpc, userOf])
    · simp [hpc, userOf]
  | handshake hpc | readRequest hpc | listen hpc | datagram hpc | noUDPLink hpc | forwarded hpc =>
    exact h.go (by simp [hpc]) rfl (Or.inr (by rw [hpc]; rfl)) rfl
  | detectTimeout hpc | handshakeFailed hpc hno | unreadable hpc hno | unauthorized hpc hno
  | refused hpc hauth hno | noGreeting hpc hno | noMethod hpc hread hno | noLink hpc hroute
  | noSocket hpc | noRelayIP hpc hno | hangUpTunnel hpc | hangUpRelay hpc =>
    exact h.go (by simp [hpc]) rfl (Or.inl rfl) rfl

end Handler

/-! ## The gauges -/

/-- What a connection adds to each of them. -/
def holds (c : Connection) : Nat := if c.stage = .released then 0 else 1

def active (c : Connection) : Nat := if c.stage = .handling ∨ c.stage = .untracked then 1 else 0

def activeFor (username ip : Bytes) (c : Connection) : Nat :=
  if c.stage = .handling ∧ c.clientIP = ip then (users c.state.log).count username else 0

def associated (c : Connection) : Nat := inUDP c.state.pc

theorem foldl_track (ip : Bytes) (d : Int) (actions : List Action) (gauge : Bytes × Bytes → Int)
    (username ip' : Bytes) : actions.foldl (track ip d) gauge (username, ip') =
      gauge (username, ip') + d * (if ip = ip' then (users actions).count username else 0 : Nat) := by
  induction actions generalizing gauge with
  | nil => simp [users]
  | cons a actions ih =>
    rw [List.foldl_cons, ih]
    cases a with
    | tracked name =>
      have husers : users (.tracked name :: actions) = name :: users actions := rfl
      rw [husers, List.count_cons]
      by_cases hip : ip = ip'
      · rw [if_pos hip, if_pos hip, hip]
        by_cases hname : name = username
        · rw [track, hname, Function.update_self, beq_self_eq_true, if_pos rfl]
          push_cast
          ring
        · have hne : (username, ip') ≠ (name, ip') := fun h => hname (Prod.mk.inj h).1.symm
          rw [track, Function.update_of_ne hne, beq_false_of_ne hname, if_neg Bool.false_ne_true,
            Nat.add_zero]
      · have hne : (username, ip') ≠ (name, ip) := fun h => hip (Prod.mk.inj h).2.symm
        rw [if_neg hip, if_neg hip, track, Function.update_of_ne hne]
    | reply | checked | dialed | openedSession | listenedUDP | dialedUDP | traffic => rfl

structure Inv (maxConnections : Nat) (s : State) : Prop where
  counted : ∀ c ∈ s.connections, Counted c.state
  accepted : s.acceptedConnections =
    s.rejectedConnections + s.connections.length + if s.pc = .accepting then 0 else 1
  places : s.connSem = tally holds s.connections + match s.pc with
    | .admitted _ _ => 1
    | _ => 0
  bounded : s.connSem ≤ maxConnections
  active : s.activeConnections = tally active s.connections
  users : ∀ username ip,
    s.userActiveConnections (username, ip) = tally (activeFor username ip) s.connections
  udp : s.activeUDPSessions = tally associated s.connections

theorem inv_initial (maxConnections : Nat) : Inv maxConnections initial :=
  ⟨fun _ hc => absurd hc List.not_mem_nil, rfl, rfl, Nat.zero_le _, rfl, fun _ _ => rfl, rfl⟩

section Server

variable {L : Library} {P : Proxy} {maxConnections : Nat} {s t : State} {e : Event}

/-- One connection changes, and each gauge with it. -/
theorem inv_set (hi : Inv maxConnections s) {i : Nat} {c c' : Connection}
    (hc : s.connections[i]? = some c) (hcounted : Counted c'.state) {places : Nat}
    {actives udp : Int} {gauge : Bytes × Bytes → Int}
    (hplaces : places + holds c = s.connSem + holds c') (hle : places ≤ s.connSem)
    (hactive : actives + active c = s.activeConnections + active c')
    (husers : ∀ username ip, gauge (username, ip) + activeFor username ip c =
      s.userActiveConnections (username, ip) + activeFor username ip c')
    (hudp : udp + associated c = s.activeUDPSessions + associated c') :
    Inv maxConnections { s with
      connSem := places
      connections := s.connections.set i c'
      activeConnections := actives
      userActiveConnections := gauge
      activeUDPSessions := udp } := by
  have hset : ∀ f : Connection → Nat, _ := fun f => Tally.tally_set f hc c'
  refine ⟨fun x hx => ?_, ?_, ?_, Nat.le_trans hle hi.bounded, ?_, fun username ip => ?_, ?_⟩
  · rcases List.mem_or_eq_of_mem_set hx with hx | rfl
    · exact hi.counted x hx
    · exact hcounted
  · rw [List.length_set]
    exact hi.accepted
  · have h := hset holds
    have hold := hi.places
    dsimp only
    omega
  · have h := hset active
    have hold := hi.active
    dsimp only
    omega
  · have h := hset (activeFor username ip)
    have hold := hi.users username ip
    have hnew := husers username ip
    dsimp only
    omega
  · have h := hset associated
    have hold := hi.udp
    dsimp only
    omega

theorem inv_act {i : Nat} {f : HandleConn.Event} (hi : Inv maxConnections s)
    (hs : step L P maxConnections s (.act i f) = some t) : Inv maxConnections t := by
  obtain ⟨c, hc, hs⟩ := Option.bind_eq_some_iff.mp hs
  split at hs
  · rename_i hstage
    obtain ⟨u, hu, rfl⟩ := Option.map_eq_some_iff.mp hs
    obtain ⟨hcounted, hlog⟩ := goes_step (hi.counted c (List.mem_of_getElem? hc)) hu
    have hnew : users u.log = users (newActions c.state u) ++ users c.state.log := by
      rw [← users_append, ← hlog]
    refine inv_set hi hc hcounted rfl (Nat.le_refl _) rfl (fun username ip => ?_) ?_
    · rw [foldl_track]
      simp only [activeFor, hstage, true_and, hnew, List.count_append]
      split <;> omega
    · simp only [associated]
      omega
  · cases hs

theorem inv_accept {clientIP stream : Bytes} (hi : Inv maxConnections s)
    (hs : step L P maxConnections s (.accept clientIP stream) = some t) :
    Inv maxConnections t := by
  simp only [step] at hs
  split at hs
  · rename_i hpc
    cases hs
    refine ⟨hi.counted, ?_, ?_, hi.bounded, hi.active, hi.users, hi.udp⟩
    · have haccepted := hi.accepted
      rw [if_pos hpc] at haccepted
      simp only [reduceCtorEq, if_false]
      omega
    · have hplaces := hi.places
      rw [hpc] at hplaces
      exact hplaces
  · cases hs

theorem inv_takePlace (hi : Inv maxConnections s)
    (hs : step L P maxConnections s .takePlace = some t) : Inv maxConnections t := by
  simp only [step] at hs
  split at hs
  · rename_i clientIP stream hpc
    split at hs
    · rename_i hroom
      cases hs
      refine ⟨hi.counted, ?_, ?_, hroom, hi.active, hi.users, hi.udp⟩
      · have haccepted := hi.accepted
        rw [hpc] at haccepted
        exact haccepted
      · have hplaces := hi.places
        rw [hpc] at hplaces
        simp only at hplaces ⊢
        omega
    · cases hs
  · cases hs

theorem inv_reject (hi : Inv maxConnections s)
    (hs : step L P maxConnections s .reject = some t) : Inv maxConnections t := by
  simp only [step] at hs
  split at hs
  · rename_i clientIP stream hpc
    split at hs
    · cases hs
    · cases hs
      refine ⟨hi.counted, ?_, ?_, hi.bounded, hi.active, hi.users, hi.udp⟩
      · have haccepted := hi.accepted
        rw [hpc] at haccepted
        simp only [reduceCtorEq, if_false, if_true] at haccepted ⊢
        omega
      · have hplaces := hi.places
        rw [hpc] at hplaces
        exact hplaces
  · cases hs

theorem inv_spawn (hi : Inv maxConnections s)
    (hs : step L P maxConnections s .spawn = some t) : Inv maxConnections t := by
  simp only [step] at hs
  split at hs
  · rename_i clientIP stream hpc
    cases hs
    refine ⟨fun c hc => ?_, ?_, ?_, hi.bounded, ?_, fun username ip => ?_, ?_⟩
    · rcases List.mem_append.mp hc with hc | hc
      · exact hi.counted c hc
      · rw [List.mem_singleton.mp hc]
        exact counted_initial stream
    · have haccepted := hi.accepted
      rw [hpc] at haccepted
      simp only [reduceCtorEq, if_false, if_true, List.length_append, List.length_singleton]
        at haccepted ⊢
      omega
    · have hplaces := hi.places
      rw [hpc] at hplaces
      simp only [Tally.tally_append, Tally.tally_cons, Tally.tally_nil, holds, reduceCtorEq,
        if_false] at hplaces ⊢
      omega
    · rw [Tally.tally_append, hi.active]
      rfl
    · rw [Tally.tally_append, hi.users username ip]
      simp [activeFor, users, HandleConn.initial]
    · rw [Tally.tally_append, hi.udp]
      rfl
  · cases hs

theorem inv_untrack {i : Nat} (hi : Inv maxConnections s)
    (hs : step L P maxConnections s (.untrack i) = some t) : Inv maxConnections t := by
  obtain ⟨c, hc, hs⟩ := Option.bind_eq_some_iff.mp hs
  split at hs
  · rename_i hstage
    cases hs
    refine inv_set hi hc ?_ ?_ (Nat.le_refl _) ?_ (fun username ip => ?_) rfl
    · exact hi.counted c (List.mem_of_getElem? hc)
    · simp [holds, hstage.1]
    · simp [active, hstage.1]
    · rw [foldl_track]
      simp only [activeFor, hstage.1, true_and, reduceCtorEq, false_and, if_false]
      omega
  · cases hs

theorem inv_uncount {i : Nat} (hi : Inv maxConnections s)
    (hs : step L P maxConnections s (.uncount i) = some t) : Inv maxConnections t := by
  obtain ⟨c, hc, hs⟩ := Option.bind_eq_some_iff.mp hs
  split at hs
  · rename_i hstage
    cases hs
    refine inv_set hi hc ?_ ?_ (Nat.le_refl _) ?_ (fun username ip => ?_) rfl
    · exact hi.counted c (List.mem_of_getElem? hc)
    · simp [holds, hstage]
    · simp [active, hstage]
    · simp [activeFor, hstage]
  · cases hs

theorem inv_release {i : Nat} (hi : Inv maxConnections s)
    (hs : step L P maxConnections s (.release i) = some t) : Inv maxConnections t := by
  obtain ⟨c, hc, hs⟩ := Option.bind_eq_some_iff.mp hs
  split at hs
  · rename_i hstage
    cases hs
    have hplace : holds c = 1 := by rw [holds, hstage]; rfl
    have hpos : 0 < s.connSem := by
      have hheld := Tally.tally_set holds hc { c with stage := .released }
      have hplaces := hi.places
      simp only [holds, if_true] at hheld hplace
      omega
    refine inv_set hi hc ?_ ?_ (Nat.sub_le _ _) ?_ (fun username ip => ?_) rfl
    · exact hi.counted c (List.mem_of_getElem? hc)
    · rw [hplace]
      simp only [holds, if_true]
      omega
    · simp [active, hstage]
    · simp [activeFor, hstage]
  · cases hs

theorem inv_step (hi : Inv maxConnections s) (hs : step L P maxConnections s e = some t) :
    Inv maxConnections t := by
  cases e with
  | accept clientIP stream => exact inv_accept hi hs
  | takePlace => exact inv_takePlace hi hs
  | reject => exact inv_reject hi hs
  | spawn => exact inv_spawn hi hs
  | act i f => exact inv_act hi hs
  | untrack i => exact inv_untrack hi hs
  | uncount i => exact inv_uncount hi hs
  | release i => exact inv_release hi hs

theorem inv_run {es : List Event} (hr : run (step L P maxConnections) initial es = some s) :
    Inv maxConnections s :=
  run_preserves (fun _ _ _ hi hs => inv_step hi hs) (inv_initial maxConnections) hr

end Server

/-! ## What the gauges say -/

theorem Counted.length {s : HandleConn.State} (h : Counted s) : (users s.log).length ≤ 1 := by
  unfold Counted at h
  split at h
  · exact h
  · rw [h]
    cases s.pc <;> simp [userOf]

theorem mem_users {username : Bytes} {log : List Action} :
    username ∈ users log ↔ .tracked username ∈ log := by
  rw [users, List.mem_filterMap]
  constructor
  · rintro ⟨a, ha, hname⟩
    cases a with
    | tracked name =>
      cases hname
      exact ha
    | reply | checked | dialed | openedSession | listenedUDP | dialedUDP | traffic => cases hname
  · intro h
    exact ⟨_, h, rfl⟩

/-- The handler runs, for this user at this address. -/
def servedFor (username ip : Bytes) (c : Connection) : Bool :=
  c.stage = .handling ∧ c.clientIP = ip ∧ .tracked username ∈ c.state.log

theorem activeFor_eq {c : Connection} (h : Counted c.state) (username ip : Bytes) :
    activeFor username ip c = if servedFor username ip c then 1 else 0 := by
  have hone := Nat.le_trans (List.count_le_length (a := username)) h.length
  have hmem := List.count_pos_iff (a := username) (l := users c.state.log)
  rw [mem_users] at hmem
  simp only [activeFor, servedFor, decide_eq_true_eq]
  by_cases hstage : c.stage = .handling ∧ c.clientIP = ip
  · rw [if_pos hstage]
    by_cases htracked : .tracked username ∈ c.state.log
    · rw [if_pos ⟨hstage.1, hstage.2, htracked⟩]
      exact Nat.le_antisymm hone (hmem.mpr htracked)
    · rw [if_neg fun hall => htracked hall.2.2]
      exact Nat.eq_zero_of_not_pos fun hpos => htracked (hmem.mp hpos)
  · rw [if_neg hstage, if_neg fun hall => hstage ⟨hall.1, hall.2.1⟩]

theorem associated_eq (c : Connection) :
    associated c = if decide (inUDP c.state.pc = 1) then 1 else 0 := by
  unfold associated
  cases c.state.pc <;> rfl

variable {L : Library} {P : Proxy} {maxConnections : Nat} {s : State}

/-- After every run of the proxy, every accepted connection is rejected, being
decided on or handed to a handler, a connection is turned away exactly when
`maxConnections` places are held, and the gauges are what they say: the handlers
that run, those of one user at one address (none of which is counted twice), and
those in a UDP association. -/
theorem gauges_exact {es : List Event}
    (hr : run (step L P maxConnections) initial es = some s) :
    (s.acceptedConnections =
      s.rejectedConnections + s.connections.length + if s.pc = .accepting then 0 else 1) ∧
    s.connections.countP (fun c => c.stage ≠ .released) ≤ maxConnections ∧
    (∀ clientIP stream, s.pc = .deciding clientIP stream →
      ((step L P maxConnections s .reject).isSome ↔
        s.connections.countP (fun c => c.stage ≠ .released) = maxConnections)) ∧
    s.activeConnections =
      s.connections.countP (fun c => c.stage = .handling ∨ c.stage = .untracked) ∧
    (∀ username ip, s.userActiveConnections (username, ip) =
      s.connections.countP (servedFor username ip)) ∧
    (∀ c ∈ s.connections, (users c.state.log).length ≤ 1) ∧
    s.activeUDPSessions = s.connections.countP (fun c => inUDP c.state.pc = 1) := by
  have hi := inv_run hr
  have hplaces : tally holds s.connections =
      s.connections.countP (fun c => c.stage ≠ .released) :=
    Tally.tally_eq_countP fun c _ => by simp [holds]
  have hactive : tally active s.connections =
      s.connections.countP (fun c => c.stage = .handling ∨ c.stage = .untracked) :=
    Tally.tally_eq_countP fun c _ => by simp [active]
  refine ⟨hi.accepted, ?_, fun clientIP stream hpc => ?_, ?_, fun username ip => ?_,
    fun c hc => (hi.counted c hc).length, ?_⟩
  · rw [← hplaces]
    have hsem := hi.places
    have hbound := hi.bounded
    omega
  · have hsem := hi.places
    have hbound := hi.bounded
    rw [hpc] at hsem
    rw [← hplaces]
    simp only [step, hpc]
    split
    · simp only [Option.isSome_none, Bool.false_eq_true, false_iff]
      simp only at hsem
      omega
    · simp only [Option.isSome_some, true_iff]
      simp only at hsem
      omega
  · rw [hi.active, hactive]
  · rw [hi.users username ip]
    exact congrArg _ (Tally.tally_eq_countP fun c hc => activeFor_eq (hi.counted c hc) username ip)
  · rw [hi.udp]
    exact congrArg _ (Tally.tally_eq_countP fun c _ => associated_eq c)

/-- Two clients for one place: the first authenticates over SOCKS5. -/
def twoClients : List Event :=
  [.accept [1] [0x05, 0x01, 0x02, 0x01, 0x01, 0x75, 0x01, 0x70], .takePlace, .spawn, .act 0 .detect,
    .act 0 (.greet true), .act 0 (.authenticate true), .accept [2] [], .reject]

def anyUser : Proxy := ⟨[], none, fun _ _ => true⟩

theorem gauges_exact_twoClients :
    ∃ s, run (step noLibrary anyUser 1) initial twoClients = some s ∧
      s.rejectedConnections = 1 ∧ s.userActiveConnections ([0x75], [1]) = 1 ∧
      s.userActiveConnections ([0x75], [1]) =
        s.connections.countP (servedFor [0x75] [1]) := by
  obtain ⟨s, hr, hrejected, huser⟩ : ∃ s, run (step noLibrary anyUser 1) initial twoClients =
      some s ∧ s.rejectedConnections = 1 ∧ s.userActiveConnections ([0x75], [1]) = 1 :=
    ⟨_, rfl, rfl, rfl⟩
  exact ⟨s, hr, hrejected, huser, (gauges_exact hr).2.2.2.2.1 [0x75] [1]⟩

end SplitProxy.ProxyServer
