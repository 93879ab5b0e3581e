import SplitProxy.DirectTunnel
import SplitProxy.ProxySession
import SplitProxy.Tally
import SplitProxy.UDPDelivery

/-!
# What users are charged for

`trafficBytes` over all that a proxy does for its clients: the tunnels of
`handleDirect` and of `handleBroker`, and UDP associations. A counter stands here for the
sum of the amounts passed to its `Add`. Where a tunnel of `handleBroker` or an association
sends something, sending and counting it are one step.
-/
namespace SplitProxy.Traffic

open Runs Tally
open HandleConn (Direction Path Action recordTraffic)
open CopyLoop (Copier)
open ClientBinding (Reader)
open Routing (Route)

abbrev Label := Bytes × Direction × Path

/-- `trafficBytes.WithLabelValues(username, direction, path).Add(n)`, in whole bytes. -/
def add (counters : Label → Nat) : Action → Label → Nat
  | .traffic username direction path n =>
    Function.update counters (username, direction, path) (counters (username, direction, path) + n)
  | _ => counters

inductive Party where
  | direct (tunnel : DirectTunnel.Tunnel)
  | worker (username : Bytes) (session : ProxySession.Session)
  | udp (username : Bytes) (relay : UDPDelivery.State)

inductive PartyEvent where
  | direct (e : DirectTunnel.Event)
  | worker (e : ProxySession.Event)
  | udp (e : ClientBinding.Event)

def readerPath : Reader → Path
  | .direct _ => .direct
  | .broker _ => .worker

/-- What `metricWriteConn.Write` records when it returns. -/
def directRecords (t : DirectTunnel.Tunnel) : DirectTunnel.Event → List Action
  | .writeDone d | .writeFailed d =>
    recordTraffic t.username d .direct (t.copy d).phase.uncounted
  | _ => []

/-- The `recordTraffic` of the goroutines of `handleBroker`. -/
def workerRecords (username : Bytes) (s : ProxySession.Session) : ProxySession.Event → List Action
  | .clientSent =>
    match s.client with
    | .sending chunk => recordTraffic username .clientToTarget .worker chunk.length
    | _ => []
  | .writeDone =>
    match s.handler with
    | .write msg _ => recordTraffic username .targetToClient .worker msg.length
    | _ => []
  | _ => []

/-- The `recordTraffic` of `sendDirectUDP`, of the relay loop and of the reading goroutines. -/
def udpRecords (username : Bytes) (s : UDPDelivery.State) (e : ClientBinding.Event) : List Action :=
  ((UDPDelivery.sends s.association e).toList.flatMap fun x =>
    recordTraffic username .clientToTarget x.1 x.2.2.length) ++
  (UDPDelivery.answers s e).toList.flatMap fun x =>
    recordTraffic username .targetToClient (readerPath x.1) x.2.2.length

namespace Party

def username : Party → Bytes
  | .direct t => t.username
  | .worker u _ => u
  | .udp u _ => u

def step (routeDirect : Route) : Party → PartyEvent → Option Party
  | .direct t, .direct e => (t.step e).map .direct
  | .worker u s, .worker e => (ProxySession.step s e).map (.worker u)
  | .udp u s, .udp e => (UDPDelivery.step routeDirect s e).map (.udp u)
  | _, _ => none

def records : Party → PartyEvent → List Action
  | .direct t, .direct e => directRecords t e
  | .worker u s, .worker e => workerRecords u s e
  | .udp u s, .udp e => udpRecords u s e
  | _, _ => []

/-- The bytes put out: what was written to a socket, data sent to the broker, messages
that were written to the client as a whole, and datagrams. -/
def carried : Party → Direction → Path → Nat
  | .direct t, d, .direct => (t.copy d).written.length
  | .direct _, _, .worker => 0
  | .worker _ s, .clientToTarget, .worker => (dataOf s.emitted).flatten.length
  | .worker _ s, .targetToClient, .worker => s.written.flatten.length
  | .worker _ _, _, .direct => 0
  | .udp _ s, .clientToTarget, path => tally (fun x => if x.1 = path then x.2.2.length else 0) s.sent
  | .udp _ s, .targetToClient, path =>
    tally (fun x => if readerPath x.1 = path then x.2.2.length else 0) s.replied

/-- The bytes of a `Write` that has not returned. -/
def uncounted : Party → Direction → Path → Nat
  | .direct t, d, .direct => (t.copy d).phase.uncounted
  | _, _, _ => 0

/-- The bytes that the client, or the target, has sent; of the target of a worker tunnel,
those of the data frames that the broker has delivered. -/
def offered : Party → Direction → Nat
  | .direct t, d => (t.conn d).stream.sent.length
  | .worker _ s, .clientToTarget => s.fromClient.length
  | .worker _ s, .targetToClient => (dataOf s.received).flatten.length
  | .udp _ s, .clientToTarget => tally (fun x => x.2.length) s.accepted
  | .udp _ s, .targetToClient => tally (fun x => x.2.2.length) s.received

end Party

structure State where
  parties : List Party
  trafficBytes : Label → Nat

def initial : State := ⟨[], fun _ => 0⟩

inductive Event where
  | handleDirect (username early : Bytes)
  | handleBroker (username : Bytes)
  | handleSOCKS5UDPAssociate (username : Bytes)
  | act (i : Nat) (e : PartyEvent)

def step (routeDirect : Route) (s : State) : Event → Option State
  | .handleDirect username early =>
    some { s with parties := s.parties ++ [.direct (.start username early)] }
  | .handleBroker username =>
    some { s with parties := s.parties ++ [.worker username ProxySession.stored] }
  | .handleSOCKS5UDPAssociate username =>
    some { s with parties := s.parties ++ [.udp username UDPDelivery.start] }
  | .act i e =>
    (s.parties[i]?).bind fun p =>
      (p.step routeDirect e).map fun q =>
        { parties := s.parties.set i q, trafficBytes := (p.records e).foldl add s.trafficBytes }

/-- The name a user is counted under. -/
def label (username : Bytes) : Bytes :=
  if username = [] then HTTPConnect.ascii "unknown" else username

/-- A quantity of the parties that are counted under a name. -/
def total (f : Party → Nat) (name : Bytes) (s : State) : Nat :=
  tally (fun p => if label p.username = name then f p else 0) s.parties

variable {routeDirect : Route} {p q : Party} {e : PartyEvent} {s t : State} {u : Bytes}
  {d : Direction} {path : Path}

/-! ## What a step records -/

/-- The bytes that have been counted. -/
def Party.counted : Party → Direction → Path → Nat
  | .direct t, d, .direct => (t.copy d).counted
  | p, d, path => p.carried d path

theorem counted_add_uncounted (p : Party) (d : Direction) (path : Path) :
    p.counted d path + p.uncounted d path = p.carried d path := by
  cases p with
  | direct t =>
    cases path with
    | direct => exact (t.copy d).tally
    | worker => rfl
  | worker u s => cases d <;> cases path <;> rfl
  | udp u s => cases d <;> cases path <;> rfl

/-- What a party adds to the counter of a label. -/
def Party.charge (p : Party) (l : Label) : Nat :=
  if label p.username = l.1 then p.counted l.2.1 l.2.2 else 0

theorem foldl_recordTraffic (counters : Label → Nat) (u : Bytes) (d : Direction) (path : Path)
    (n : Nat) (l : Label) :
    (recordTraffic u d path n).foldl add counters l =
      counters l + if label u = l.1 then (if l.2 = (d, path) then n else 0) else 0 := by
  unfold recordTraffic
  by_cases hn : n = 0
  · rw [if_pos hn, hn, ite_self, ite_self]
    rfl
  · rw [if_neg hn]
    change Function.update counters (label u, d, path) _ l = _
    by_cases hl : l = (label u, d, path)
    · rw [hl, Function.update_self, if_pos rfl, if_pos rfl]
      rfl
    · rw [Function.update_of_ne hl]
      by_cases hname : label u = l.1
      · rw [if_pos hname, if_neg fun h => hl (Prod.ext hname.symm h)]
        rfl
      · rw [if_neg hname]
        rfl

/-- What is recorded is what has been counted more. -/
theorem charge_more {n : Nat} (hu : q.username = p.username) (hd : q.counted d path = p.counted d path + n)
    (hother : ∀ x, x ≠ (d, path) → q.counted x.1 x.2 = p.counted x.1 x.2) (counters : Label → Nat)
    (l : Label) :
    (recordTraffic p.username d path n).foldl add counters l + p.charge l = counters l + q.charge l := by
  rw [foldl_recordTraffic]
  unfold Party.charge
  rw [hu]
  by_cases hname : label p.username = l.1
  · rw [if_pos hname, if_pos hname, if_pos hname]
    by_cases hl : l.2 = (d, path)
    · have hmore : q.counted l.2.1 l.2.2 = p.counted l.2.1 l.2.2 + n := by
        rw [hl]
        exact hd
      rw [if_pos hl, hmore]
      omega
    · rw [if_neg hl, hother l.2 hl]
      omega
  · rw [if_neg hname, if_neg hname, if_neg hname]

/-- A copy has counted `n` bytes more. -/
theorem charge_copy {t : DirectTunnel.Tunnel} {k : Copier UInt8} {n : Nat}
    (hk : k.counted = (t.copy d).counted + n) (counters : Label → Nat) (l : Label) :
    (recordTraffic t.username d .direct n).foldl add counters l + (Party.direct t).charge l =
      counters l + (Party.direct (t.setCopy d k)).charge l := by
  refine charge_more (p := .direct t) ?_ ?_ (fun x hx => ?_) counters l
  · rfl
  · change (Function.update t.copy d k d).counted = _
    rw [Function.update_self]
    exact hk
  · obtain ⟨d', path⟩ := x
    cases path with
    | direct =>
      have hd : d' ≠ d := fun h => hx (by rw [h])
      change (Function.update t.copy d k d').counted = _
      rw [Function.update_of_ne hd]
      rfl
    | worker => rfl

theorem charge_direct {t v : DirectTunnel.Tunnel} (hu : v.username = t.username)
    (hcopy : v.copy = t.copy) (l : Label) : (Party.direct t).charge l = (Party.direct v).charge l := by
  have hcounted : ∀ d path, (Party.direct v).counted d path = (Party.direct t).counted d path := by
    intro d path
    cases path with
    | direct =>
      change (v.copy d).counted = (t.copy d).counted
      rw [hcopy]
    | worker => rfl
  have hname : (Party.direct v).username = (Party.direct t).username := hu
  unfold Party.charge
  rw [hcounted, hname]

theorem records_direct {t v : DirectTunnel.Tunnel} {e : DirectTunnel.Event} (h : t.step e = some v)
    (counters : Label → Nat) (l : Label) :
    (directRecords t e).foldl add counters l + (Party.direct t).charge l =
      counters l + (Party.direct v).charge l := by
  cases DirectTunnel.Tunnel.step_move h with
  | peer d c hown hgrows hbroken =>
    have hquiet : directRecords t e = [] := by cases e <;> first | rfl | cases hown
    rw [hquiet]
    exact congrArg (counters l + ·) (charge_direct (by rfl) (by rfl) l)
  | @read d n last c hreadable hfetch =>
    obtain ⟨-, -, -, -, hcounted⟩ := Copier.fetch_some hfetch
    have hcharge := @charge_copy d (t.setConn d ((t.conn d).take n)) c 0 hcounted counters l
    rw [← @charge_direct t (t.setConn d ((t.conn d).take n)) rfl rfl l] at hcharge
    exact hcharge
  | @writeSome d n c hopen hput =>
    obtain ⟨n, rest, last, -, -, -, -, -, -, hcounted⟩ := Copier.put_some hput
    exact @charge_copy d t c 0 hcounted counters l
  | writeDone hcomplete =>
    obtain ⟨n, last, hphase, -, -, -, hcounted⟩ := Copier.complete_some hcomplete
    refine charge_copy ?_ counters l
    rw [hcounted, hphase]
    rfl
  | writeFailed hfaulty hfail =>
    obtain ⟨n, rest, last, hphase, -, -, -, hcounted⟩ := Copier.fail_some hfail
    refine charge_copy ?_ counters l
    rw [hcounted, hphase]
    rfl
  | signal | receive | closeClient | closeServer =>
    exact congrArg (counters l + ·) (charge_direct (by rfl) (by rfl) l)

theorem charge_worker {s t : ProxySession.Session} (hdata : dataOf t.emitted = dataOf s.emitted)
    (hwritten : t.written = s.written) (l : Label) :
    (Party.worker u s).charge l = (Party.worker u t).charge l := by
  have hcounted : ∀ d path, (Party.worker u t).counted d path = (Party.worker u s).counted d path := by
    intro d path
    cases d <;> cases path <;> simp [Party.counted, Party.carried, hdata, hwritten]
  unfold Party.charge
  rw [hcounted]
  rfl

theorem records_worker {s t : ProxySession.Session} {e : ProxySession.Event}
    (h : ProxySession.step s e = some t) (counters : Label → Nat) (l : Label) :
    (workerRecords u s e).foldl add counters l + (Party.worker u s).charge l =
      counters l + (Party.worker u t).charge l := by
  cases ProxySession.step_move h with
  | @clientSent chunk hclient =>
    have hrecords : workerRecords u s .clientSent =
        recordTraffic u .clientToTarget .worker chunk.length := by
      simp only [workerRecords, hclient]
    rw [hrecords]
    refine charge_more (p := .worker u s) ?_ ?_ (fun x hx => ?_) counters l
    · rfl
    · simp [Party.counted, Party.carried, Command.carriesData]
    · obtain ⟨d, path⟩ := x
      cases d <;> cases path <;> first | rfl | exact absurd rfl hx
  | @writeDone msg hhandler =>
    have hrecords : workerRecords u s .writeDone =
        recordTraffic u .targetToClient .worker msg.length := by
      simp only [workerRecords, hhandler]
    rw [hrecords]
    refine charge_more (p := .worker u s) ?_ ?_ (fun x hx => ?_) counters l
    · rfl
    · simp [Party.counted, Party.carried]
    · obtain ⟨d, path⟩ := x
      cases d <;> cases path <;> first | rfl | exact absurd rfl hx
  | @closeSent ok hhandler =>
    refine congrArg (counters l + ·) (charge_worker ?_ (by rfl) l)
    cases ok <;> simp [Command.carriesData]
  | loopClose | linkClose | closeDone =>
    exact congrArg (counters l + ·) (charge_worker (by simp) (by simp) l)
  | _ => exact congrArg (counters l + ·) (charge_worker (by rfl) (by rfl) l)

theorem charge_sent (s : UDPDelivery.State) (o : Option (Path × ClientBinding.UDPAddr × Bytes))
    (counters : Label → Nat) (l : Label) :
    (o.toList.flatMap fun x => recordTraffic u .clientToTarget x.1 x.2.2.length).foldl add counters l +
        (Party.udp u s).charge l =
      counters l + (Party.udp u { s with sent := o.toList ++ s.sent }).charge l := by
  cases o with
  | none => rfl
  | some x =>
    rw [Option.toList_some, List.flatMap_singleton]
    refine charge_more (p := .udp u s) ?_ ?_ (fun y hy => ?_) counters l
    · rfl
    · simp [Party.counted, Party.carried, Nat.add_comm]
    · obtain ⟨d, path⟩ := y
      cases d with
      | clientToTarget =>
        have hpath : x.1 ≠ path := fun h => hy (by rw [h])
        simp [Party.counted, Party.carried, hpath]
      | targetToClient => rfl

theorem charge_replied (s : UDPDelivery.State) (o : Option (Reader × ClientBinding.UDPAddr × Bytes))
    (counters : Label → Nat) (l : Label) :
    (o.toList.flatMap fun x =>
        recordTraffic u .targetToClient (readerPath x.1) x.2.2.length).foldl add counters l +
        (Party.udp u s).charge l =
      counters l + (Party.udp u { s with replied := o.toList ++ s.replied }).charge l := by
  cases o with
  | none => rfl
  | some x =>
    rw [Option.toList_some, List.flatMap_singleton]
    refine charge_more (p := .udp u s) ?_ ?_ (fun y hy => ?_) counters l
    · rfl
    · simp [Party.counted, Party.carried, Nat.add_comm]
    · obtain ⟨d, path⟩ := y
      cases d with
      | clientToTarget => rfl
      | targetToClient =>
        have hpath : readerPath x.1 ≠ path := fun h => hy (by rw [h])
        simp [Party.counted, Party.carried, hpath]

theorem records_udp {s t : UDPDelivery.State} {e : ClientBinding.Event}
    (h : UDPDelivery.step routeDirect s e = some t) (counters : Label → Nat) (l : Label) :
    (udpRecords u s e).foldl add counters l + (Party.udp u s).charge l =
      counters l + (Party.udp u t).charge l := by
  obtain ⟨b, -, rfl⟩ := Option.map_eq_some_iff.mp h
  let m : UDPDelivery.State :=
    { s with sent := (UDPDelivery.sends s.association e).toList ++ s.sent }
  have hsent : _ = counters l + (Party.udp u m).charge l :=
    @charge_sent u s (UDPDelivery.sends s.association e) counters l
  have hreplied := @charge_replied u m (UDPDelivery.answers s e)
    (((UDPDelivery.sends s.association e).toList.flatMap fun x =>
      recordTraffic u .clientToTarget x.1 x.2.2.length).foldl add counters) l
  have hlast : (Party.udp u { m with replied := (UDPDelivery.answers s e).toList ++ m.replied }).charge l =
      (Party.udp u (s.next e b)).charge l := by
    unfold Party.charge
    congr 1
    obtain ⟨name, d, path⟩ := l
    cases d <;> rfl
  unfold udpRecords
  rw [List.foldl_append]
  rw [hlast] at hreplied
  omega

theorem records_step (h : p.step routeDirect e = some q) (counters : Label → Nat) (l : Label) :
    (p.records e).foldl add counters l + p.charge l = counters l + q.charge l := by
  cases p <;> cases e
  case direct.direct t e =>
    obtain ⟨v, hv, rfl⟩ := Option.map_eq_some_iff.mp h
    exact records_direct hv counters l
  case worker.worker u s e =>
    obtain ⟨v, hv, rfl⟩ := Option.map_eq_some_iff.mp h
    exact records_worker hv counters l
  case udp.udp u s e =>
    obtain ⟨v, hv, rfl⟩ := Option.map_eq_some_iff.mp h
    exact records_udp hv counters l
  all_goals cases h

/-! ## What a party is offered -/

/-- What holds of a party by itself. -/
def Party.Inv : Party → Prop
  | .direct t => t.Inv
  | .worker _ s => ProxySession.Inv s
  | .udp _ s => UDPDelivery.Kept s

theorem inv_step (hi : p.Inv) (h : p.step routeDirect e = some q) : q.Inv := by
  cases p <;> cases e
  case direct.direct t e =>
    obtain ⟨v, hv, rfl⟩ := Option.map_eq_some_iff.mp h
    exact DirectTunnel.Tunnel.inv_step hi hv
  case worker.worker u s e =>
    obtain ⟨v, hv, rfl⟩ := Option.map_eq_some_iff.mp h
    exact ProxySession.inv_step hi hv
  case udp.udp u s e =>
    obtain ⟨v, hv, rfl⟩ := Option.map_eq_some_iff.mp h
    exact UDPDelivery.kept_step hi hv
  all_goals cases h

theorem tally_paths {α : Type} (path : α → Path) (f : α → Nat) (l : List α) :
    tally (fun x => if path x = .direct then f x else 0) l +
      tally (fun x => if path x = .worker then f x else 0) l = tally f l := by
  refine tally_add (fun x => ?_) l
  cases path x <;> simp

/-- Over both paths no more is counted than came in. -/
theorem counted_le (hi : p.Inv) (d : Direction) :
    p.counted d .direct + p.counted d .worker ≤ p.offered d := by
  cases p with
  | direct t =>
    have htally := (t.copy d).tally
    have hwritten := (t.copy d).written_isPrefix.length_le
    have hread := (hi.flow d).taken
    have htaken := (t.conn d).stream.ordered.length_le
    rw [hread] at hwritten
    change (t.copy d).counted + 0 ≤ (t.conn d).stream.sent.length
    omega
  | worker u s =>
    cases d with
    | clientToTarget =>
      have hle := (ProxySession.emitted_le hi.emitted).length_le
      change 0 + (dataOf s.emitted).flatten.length ≤ s.fromClient.length
      omega
    | targetToClient =>
      have hle := (ProxySession.clientBytes_le hi).length_le
      unfold ProxySession.clientBytes at hle
      rw [List.length_append] at hle
      change 0 + s.written.flatten.length ≤ (dataOf s.received).flatten.length
      omega
  | udp u s =>
    cases d with
    | clientToTarget =>
      have hpaths := tally_paths (fun x => x.1) (fun x => x.2.2.length) s.sent
      have hsent : tally (fun x => x.2.2.length) s.sent =
          tally (fun x => x.2.length) s.association.forwarded := by
        rw [← hi.inOrder.sent, tally_map]
      have hle := tally_sublist (fun x => x.2.length) hi.inOrder.forwarded
      change tally _ s.sent + tally _ s.sent ≤ tally _ s.accepted
      omega
    | targetToClient =>
      have hpaths := tally_paths (fun x => readerPath x.1) (fun x => x.2.2.length) s.replied
      have hle := tally_subperm (fun x => x.2.2.length) (UDPDelivery.replied_subperm hi.inOrder)
      change tally _ s.replied + tally _ s.replied ≤ tally _ s.received
      omega

/-! ## Runs -/

theorem step_act {i : Nat} (h : step routeDirect s (.act i e) = some t) :
    ∃ p q, s.parties[i]? = some p ∧ p.step routeDirect e = some q ∧
      t = ⟨s.parties.set i q, (p.records e).foldl add s.trafficBytes⟩ := by
  obtain ⟨p, hp, h⟩ := Option.bind_eq_some_iff.mp h
  obtain ⟨q, hq, rfl⟩ := Option.map_eq_some_iff.mp h
  exact ⟨p, q, hp, hq, rfl⟩

theorem inv_of_run {es : List Event} (hr : run (step routeDirect) initial es = some s) :
    ∀ p ∈ s.parties, p.Inv := by
  have hnew : ∀ {l : List Party} {q : Party}, (∀ p ∈ l, p.Inv) → q.Inv → ∀ p ∈ l ++ [q], p.Inv := by
    intro l q hl hq p hp
    rcases List.mem_append.mp hp with hp | hp
    · exact hl p hp
    · rw [List.mem_singleton.mp hp]
      exact hq
  refine run_preserves (I := fun s => ∀ p ∈ s.parties, p.Inv) (fun s a s' hI hs => ?_)
    (fun p hp => absurd hp List.not_mem_nil) hr
  cases a with
  | handleDirect username early =>
    cases hs
    exact hnew hI (DirectTunnel.Tunnel.inv_start username early)
  | handleBroker username =>
    cases hs
    exact hnew hI ProxySession.inv_stored
  | handleSOCKS5UDPAssociate username =>
    cases hs
    exact hnew hI UDPDelivery.kept_start
  | act i e =>
    obtain ⟨p, q, hp, hq, rfl⟩ := step_act hs
    intro x hx
    rcases List.mem_or_eq_of_mem_set hx with hx | rfl
    · exact hI x hx
    · exact inv_step (hI p (List.mem_of_getElem? hp)) hq

/-- The counters hold what the parties have counted. -/
theorem counted_of_run {es : List Event} (hr : run (step routeDirect) initial es = some s) (l : Label) :
    s.trafficBytes l = tally (Party.charge · l) s.parties := by
  have hnew : ∀ {ps : List Party} {q : Party} {n : Nat}, n = tally (Party.charge · l) ps →
      q.charge l = 0 → n = tally (Party.charge · l) (ps ++ [q]) := by
    intro ps q n hn hq
    rw [tally_append, tally_cons, tally_nil, hq]
    exact hn
  refine run_preserves (I := fun s => s.trafficBytes l = tally (Party.charge · l) s.parties)
    (fun s a s' hI hs => ?_) rfl hr
  obtain ⟨name, d, path⟩ := l
  cases a with
  | handleDirect username early =>
    cases hs
    refine hnew hI ?_
    cases path <;> exact ite_self 0
  | handleBroker username =>
    cases hs
    refine hnew hI ?_
    cases d <;> cases path <;> exact ite_self 0
  | handleSOCKS5UDPAssociate username =>
    cases hs
    refine hnew hI ?_
    cases d <;> exact ite_self 0
  | act i e =>
    obtain ⟨p, q, hp, hq, rfl⟩ := step_act hs
    have hstep := records_step hq s.trafficBytes (name, d, path)
    have hset := tally_set (Party.charge · (name, d, path)) hp q
    dsimp only at hI hset ⊢
    omega

/-- In every state of every run each counter is the number of bytes put out for the
user in its direction and on its path, but for the calls of `Write` under way. -/
theorem traffic_exact {es : List Event} (hr : run (step routeDirect) initial es = some s)
    (name : Bytes) (d : Direction) (path : Path) :
    s.trafficBytes (name, d, path) + total (fun p => p.uncounted d path) name s =
      total (fun p => p.carried d path) name s := by
  rw [counted_of_run hr (name, d, path)]
  refine tally_add (fun p => ?_) s.parties
  have hp := counted_add_uncounted p d path
  unfold Party.charge
  dsimp only
  split
  · exact hp
  · rfl

/-- No user is charged for more than the clients, or the targets, have sent. -/
theorem traffic_offered {es : List Event} (hr : run (step routeDirect) initial es = some s)
    (name : Bytes) (d : Direction) :
    s.trafficBytes (name, d, .direct) + s.trafficBytes (name, d, .worker) ≤
      total (fun p => p.offered d) name s := by
  have hinv := inv_of_run hr
  rw [counted_of_run hr (name, d, .direct), counted_of_run hr (name, d, .worker)]
  have hboth := @tally_add _ (Party.charge · (name, d, .direct)) (Party.charge · (name, d, .worker))
    (fun p => p.charge (name, d, .direct) + p.charge (name, d, .worker)) (fun p => rfl) s.parties
  rw [hboth]
  refine tally_le fun p hp => ?_
  have hle := counted_le (hinv p hp) d
  unfold Party.charge
  dsimp only
  split
  · exact hle
  · exact Nat.le_refl _

/-- A tunnel through a worker and a UDP association of one user. -/
def twoParties : List Event :=
  [.handleBroker [0x75], .handleSOCKS5UDPAssociate [0x75], .act 0 (.worker .requestSent),
    .act 0 (.worker (.frame .connected [])), .act 0 (.worker .signalConnected),
    .act 0 (.worker .connectOk), .act 0 (.worker .responseOk),
    .act 0 (.worker (.clientRead [0x61, 0x62])), .act 0 (.worker .clientSent)] ++
  UDPDelivery.oneAnswer.map fun e => .act 1 (.udp e)

theorem traffic_exact_twoParties : ∃ s,
    run (step (HTTPConnect.ascii "direct")) initial twoParties = some s ∧
      s.trafficBytes ([0x75], .clientToTarget, .worker) = 2 ∧
      s.trafficBytes ([0x75], .clientToTarget, .worker) +
          total (fun p => p.uncounted .clientToTarget .worker) [0x75] s =
        total (fun p => p.carried .clientToTarget .worker) [0x75] s := by
  have hrun : (run (step (HTTPConnect.ascii "direct")) initial twoParties).map
      (fun s => s.trafficBytes ([0x75], .clientToTarget, .worker)) = some 2 := by decide +kernel
  obtain ⟨s, hs, hbytes⟩ := Option.map_eq_some_iff.mp hrun
  exact ⟨s, hs, hbytes, traffic_exact hs [0x75] .clientToTarget .worker⟩

theorem traffic_offered_twoParties : ∃ s,
    run (step (HTTPConnect.ascii "direct")) initial twoParties = some s ∧
      s.trafficBytes ([0x75], .clientToTarget, .direct) +
          s.trafficBytes ([0x75], .clientToTarget, .worker) = 3 ∧
      3 ≤ total (fun p => p.offered .clientToTarget) [0x75] s := by
  have hrun : (run (step (HTTPConnect.ascii "direct")) initial twoParties).map
      (fun s => s.trafficBytes ([0x75], .clientToTarget, .direct) +
        s.trafficBytes ([0x75], .clientToTarget, .worker)) = some 3 := by decide +kernel
  obtain ⟨s, hs, hbytes⟩ := Option.map_eq_some_iff.mp hrun
  have hle := traffic_offered hs [0x75] .clientToTarget
  rw [hbytes] at hle
  exact ⟨s, hs, hbytes, hle⟩

end SplitProxy.Traffic
