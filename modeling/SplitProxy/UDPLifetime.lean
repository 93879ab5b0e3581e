import SplitProxy.SessionKeys
import SplitProxy.KeyedSessions

/-!
# The sessions of a UDP association

What an association has open at any time, and what is left of it when
`handleSOCKS5UDPAssociate` has returned: the loop of `ClientBinding` with the
deferred `closeAllSessions` at its end, while the reading goroutines go on.
-/
namespace SplitProxy.UDPLifetime

open Runs KeyedSessions
open Routing (Route)
open ClientBinding (closeBroker)

/-- `directSessions` and the sessions made for it. -/
def directTable (s : Direct.Association) : Table Bytes :=
  ⟨s.sessions.map fun x => (x.target, x.closed), s.directSessions⟩

/-- `brokerSessions` and the sessions made for it. -/
def brokerTable (s : ClientBinding.State) : Table Bytes :=
  ⟨s.broker.map fun x => (x.key, x.closed), s.brokerSessions⟩

/-- The deferred `closeAllSessions`. -/
def closeAllSessions (s : ClientBinding.State) : ClientBinding.State :=
  { s with
    relay := { s.relay with
      sessions := s.relay.sessions.mapIdx fun i x =>
        if s.relay.directSessions x.target = some i then { x with closed := true } else x
      directSessions := fun _ => none }
    broker := s.broker.mapIdx fun i x =>
      if s.brokerSessions x.key = some i then { x with closed := true } else x
    brokerSessions := fun _ => none }

/-- An association, and whether its handler has returned. -/
structure State where
  association : ClientBinding.State
  returned : Bool

def initial : State := ⟨ClientBinding.start, false⟩

inductive Event where
  | act (e : ClientBinding.Event)
  | returns

def step (routeDirect : Route) (s : State) : Event → Option State
  | .act e => (ClientBinding.step routeDirect s.association e).map fun a => { s with association := a }
  | .returns =>
    match s.returned, s.association.loop with
    | false, .stopped => some ⟨closeAllSessions s.association, true⟩
    | _, _ => none

/-! ## The tables of the direct and of the broker path -/

variable {routeDirect : Route} {a b : Direct.Association} {s t : ClientBinding.State}

theorem directTable_live (a : Direct.Association) (target : Bytes) :
    (directTable a).live target = Direct.live a target := by
  unfold Table.live Direct.live directTable
  congr 1
  funext i
  simp only [List.getElem?_map]
  cases a.sessions[i]? <;> rfl

theorem brokerTable_live (s : ClientBinding.State) (key : Bytes) :
    (brokerTable s).live key = ClientBinding.live s key := by
  unfold Table.live ClientBinding.live brokerTable
  congr 1
  funext i
  simp only [List.getElem?_map]
  cases s.broker[i]? <;> rfl

theorem directTable_close (a : Direct.Association) (i : Nat) :
    directTable { a with sessions := Direct.close a.sessions i } = (directTable a).close i := by
  have hmap := @map_modify _ _ (fun x : Direct.DirectSession => (x.target, x.closed))
    (fun x => { x with closed := true }) (fun x => (x.1, true)) (fun _ => rfl) a.sessions i
  exact congrArg (Table.mk · a.directSessions) hmap

theorem brokerTable_close (s : ClientBinding.State) (i : Nat) :
    brokerTable { s with broker := closeBroker s.broker i } = (brokerTable s).close i := by
  have hmap := @map_modify _ _ (fun x : ClientBinding.BrokerSession => (x.key, x.closed))
    (fun x => { x with closed := true }) (fun x => (x.1, true)) (fun _ => rfl) s.broker i
  exact congrArg (Table.mk · s.brokerSessions) hmap

/-- Taking a session out of the table when its key still leads to it. -/
theorem sound_forget {u : Table Bytes} {i : Nat} {key : Bytes} (h : u.Sound)
    (hi : u.sessions[i]? = some (key, true)) :
    Table.Sound ⟨u.sessions, Direct.forget u.lookup key i⟩ := by
  have hforget := h.forget hi
  unfold Direct.forget
  split
  · rename_i hk
    rw [if_pos hk] at hforget
    exact hforget
  · exact h

theorem getElem_directTable {i : Nat} {x : Direct.DirectSession} (hx : a.sessions[i]? = some x) :
    (directTable a).sessions[i]? = some (x.target, x.closed) := by
  unfold directTable
  rw [List.getElem?_map, hx]
  rfl

theorem getElem_brokerTable {i : Nat} {x : ClientBinding.BrokerSession}
    (hx : s.broker[i]? = some x) : (brokerTable s).sessions[i]? = some (x.key, x.closed) := by
  unfold brokerTable
  rw [List.getElem?_map, hx]
  rfl

/-- What the direct path does to its sessions; where the loop holds one, it is the
one of its target. -/
structure DirectInv (a : Direct.Association) : Prop where
  sound : (directTable a).Sound
  holds : ∀ packet target id ips, a.pc = .sending packet target id ips →
    ∃ x, a.sessions[id]? = some x ∧ x.target = target

theorem directInv_start : DirectInv Direct.start := ⟨Table.sound_empty, fun _ _ _ _ h => by cases h⟩

theorem live_some {target : Bytes} {id : Nat} (hs : (directTable a).Sound)
    (h : Direct.live a target = some id) : ∃ x, a.sessions[id]? = some x ∧ x.target = target := by
  obtain ⟨hid, -⟩ := Option.filter_eq_some_iff.mp h
  obtain ⟨c, hc⟩ := hs.keyed target id hid
  unfold directTable at hc
  rw [List.getElem?_map] at hc
  obtain ⟨x, hx, he⟩ := Option.map_eq_some_iff.mp hc
  cases he
  exact ⟨x, hx, rfl⟩

/-- Closing a session leaves the loop what it holds. -/
theorem holds_close {target : Bytes} {id : Nat} (i : Nat)
    (h : ∃ x, a.sessions[id]? = some x ∧ x.target = target) :
    ∃ x, (Direct.close a.sessions i)[id]? = some x ∧ x.target = target := by
  obtain ⟨x, hx, ht⟩ := h
  unfold Direct.close
  rw [List.getElem?_modify, hx]
  by_cases hid : i = id
  · exact ⟨{ x with closed := true }, by simp [hid], ht⟩
  · exact ⟨x, by simp [hid], ht⟩

theorem directInv_step {e : Direct.Event} (hi : DirectInv a)
    (h : Direct.step routeDirect a e = some b) : DirectInv b := by
  have hsound := hi.sound
  have hholds := hi.holds
  cases e with
  | datagram d =>
    simp only [Direct.step] at h
    split at h
    · split at h
      · cases h
        exact hi
      · split at h
        · split at h
          · cases h
            exact hi
          · cases h
            exact ⟨hsound, fun _ _ _ _ hpc => by cases hpc⟩
        · cases h
          exact hi
    · cases h
  | pick =>
    simp only [Direct.step] at h
    split at h
    · cases h
      exact ⟨hsound, fun _ _ _ _ hpc => by cases hpc⟩
    · split at h
      · rename_i id hlive
        cases h
        refine ⟨hsound, fun _ _ _ _ hpc => ?_⟩
        cases hpc
        exact live_some hsound hlive
      · rename_i hlive
        cases h
        refine ⟨hsound.unset fun i => ?_, fun _ _ _ _ hpc => by cases hpc⟩
        rw [← directTable_live] at hlive
        exact hsound.not_open hlive i
    · cases h
  | dial ok =>
    simp only [Direct.step] at h
    split at h
    · split at h
      · cases h
        exact ⟨hsound, fun _ _ _ _ hpc => by cases hpc⟩
      · rename_i packet target ips hpc addr port hopen
        split at h
        · split at h
          · rename_i id hlive
            cases h
            refine ⟨hsound, fun _ _ _ _ hpc => ?_⟩
            cases hpc
            exact live_some hsound hlive
          · rename_i hlive
            cases h
            rw [← directTable_live] at hlive
            refine ⟨?_, fun _ _ _ _ hpc => ?_⟩
            · have hadd := hsound.add hlive
              simp only [Table.add, directTable, List.length_map] at hadd ⊢
              rw [List.map_append]
              exact hadd
            · cases hpc
              exact ⟨_, List.getElem?_concat_length, rfl⟩
        · cases h
          exact ⟨hsound, fun _ _ _ _ hpc => by cases hpc⟩
    · cases h
  | send ok =>
    simp only [Direct.step] at h
    split at h
    · rename_i packet target id ips hpc
      obtain ⟨y, hy, htarget⟩ := hholds packet target id ips hpc
      split at h
      · cases h
      · rename_i x hx
        split at h
        · cases h
          exact ⟨hsound, fun _ _ _ _ hpc => by cases hpc⟩
        · cases h
          refine ⟨?_, fun _ _ _ _ hpc => by cases hpc⟩
          have hclosed := hsound.close id
          rw [← directTable_close] at hclosed
          refine sound_forget hclosed ?_
          rw [directTable_close, Table.getElem_close, getElem_directTable hy, htarget]
          simp
    · cases h
  | readerCloses id =>
    simp only [Direct.step] at h
    split at h
    · cases h
      refine ⟨?_, fun packet target id' ips hpc => holds_close id (hholds packet target id' ips hpc)⟩
      rw [directTable_close]
      exact hsound.close id
    · cases h
  | readerForgets id =>
    simp only [Direct.step] at h
    split at h
    · cases h
    · rename_i x hx
      split at h
      · rename_i hclosed
        cases h
        refine ⟨sound_forget hsound ?_, hholds⟩
        rw [getElem_directTable hx, hclosed]
      · cases h

/-! ## The association -/

structure Inv (s : ClientBinding.State) : Prop where
  direct : DirectInv s.relay
  broker : (brokerTable s).Sound

theorem inv_start : Inv ClientBinding.start := ⟨directInv_start, Table.sound_empty⟩

theorem inv_step {e : ClientBinding.Event} (hi : Inv s)
    (h : ClientBinding.step routeDirect s e = some t) : Inv t := by
  have hdirect := hi.direct
  have hbroker := hi.broker
  cases e with
  | datagram src d =>
    simp only [ClientBinding.step] at h
    split at h
    · split at h
      · cases h
        exact hi
      · split at h
        · split at h
          · obtain ⟨r, hr, rfl⟩ := Option.map_eq_some_iff.mp h
            exact ⟨directInv_step hdirect hr, hbroker⟩
          · cases h
            exact ⟨hdirect, hbroker⟩
        · cases h
          exact ⟨hdirect, hbroker⟩
    · cases h
  | stop =>
    simp only [ClientBinding.step] at h
    split at h
    · cases h
      exact ⟨hdirect, hbroker⟩
    · cases h
  | direct f =>
    simp only [ClientBinding.step] at h
    split at h
    · obtain ⟨r, hr, rfl⟩ := Option.map_eq_some_iff.mp h
      exact ⟨directInv_step hdirect hr, hbroker⟩
    · split at h
      · obtain ⟨r, hr, rfl⟩ := Option.map_eq_some_iff.mp h
        exact ⟨directInv_step hdirect hr, hbroker⟩
      · cases h
  | pickBroker =>
    simp only [ClientBinding.step] at h
    split at h
    · split at h
      · cases h
        exact ⟨hdirect, hbroker⟩
      · rename_i hlive
        cases h
        rw [← brokerTable_live] at hlive
        exact ⟨hdirect, hbroker.unset fun i => hbroker.not_open hlive i⟩
    · cases h
  | dialBroker ok =>
    simp only [ClientBinding.step] at h
    split at h
    · split at h
      · split at h
        · cases h
          exact ⟨hdirect, hbroker⟩
        · rename_i hlive
          cases h
          rw [← brokerTable_live] at hlive
          refine ⟨hdirect, ?_⟩
          have hadd := hbroker.add hlive
          simp only [Table.add, brokerTable, List.length_map] at hadd ⊢
          rw [List.map_append]
          exact hadd
      · cases h
        exact ⟨hdirect, hbroker⟩
    · cases h
  | sendBroker ok =>
    simp only [ClientBinding.step] at h
    split at h
    · rename_i src packet id hloop
      split at h
      · cases h
      · rename_i x hx
        split at h
        · cases h
          exact ⟨hdirect, hbroker⟩
        · split at h
          · cases h
            exact ⟨hdirect, hbroker⟩
          · cases h
            have hclosed := hbroker.close id
            rw [← brokerTable_close] at hclosed
            refine ⟨hdirect, sound_forget hclosed ?_⟩
            rw [brokerTable_close, Table.getElem_close, getElem_brokerTable hx]
            simp
    · cases h
  | brokerCloses id =>
    simp only [ClientBinding.step] at h
    split at h
    · cases h
      refine ⟨hdirect, ?_⟩
      rw [brokerTable_close]
      exact hbroker.close id
    · cases h
  | brokerForgets id =>
    simp only [ClientBinding.step] at h
    split at h
    · cases h
    · rename_i x hx
      split at h
      · rename_i hclosed
        cases h
        refine ⟨hdirect, sound_forget hbroker ?_⟩
        rw [getElem_brokerTable hx, hclosed]
      · cases h
  | received r src payload =>
    simp only [ClientBinding.step] at h
    split at h
    · split at h
      · cases h
        exact hi
      · split at h
        · cases h
          exact hi
        · cases h
          exact ⟨hdirect, hbroker⟩
    · cases h
  | written r ok =>
    simp only [ClientBinding.step] at h
    split at h
    · cases h
    · cases h
      exact ⟨hdirect, hbroker⟩

/-- Nothing of the association is open any more, and its loop makes nothing new. -/
structure Released (s : ClientBinding.State) : Prop where
  loop : s.loop = .stopped
  direct : ∀ x ∈ s.relay.sessions, x.closed = true
  broker : ∀ x ∈ s.broker, x.closed = true

theorem closed_modify {α : Type} {closed : α → Bool} {g : α → α} (hg : ∀ x, closed (g x) = true)
    {l : List α} (h : ∀ x ∈ l, closed x = true) (i : Nat) : ∀ x ∈ l.modify i g, closed x = true := by
  intro x hx
  obtain ⟨j, hj⟩ := List.mem_iff_getElem?.mp hx
  rw [List.getElem?_modify] at hj
  obtain ⟨y, hy, he⟩ := Option.map_eq_some_iff.mp hj
  rw [← he]
  split
  · exact hg y
  · exact h y (List.mem_of_getElem? hy)

/-- Only the reading goroutines are left, and they open nothing. -/
theorem released_step {e : ClientBinding.Event} (hr : Released s)
    (h : ClientBinding.step routeDirect s e = some t) : Released t := by
  obtain ⟨hloop, hdirect, hbroker⟩ := hr
  cases e with
  | datagram | stop | pickBroker | dialBroker | sendBroker =>
    simp only [ClientBinding.step, hloop] at h
    cases h
  | direct f =>
    simp only [ClientBinding.step] at h
    split at h
    · rename_i hf
      obtain ⟨r, hstep, rfl⟩ := Option.map_eq_some_iff.mp h
      refine ⟨hloop, ?_, hbroker⟩
      cases f with
      | readerCloses id =>
        simp only [Direct.step] at hstep
        split at hstep
        · cases hstep
          exact closed_modify (fun _ => rfl) hdirect id
        · cases hstep
      | readerForgets id =>
        simp only [Direct.step] at hstep
        split at hstep
        · cases hstep
        · split at hstep
          · cases hstep
            exact hdirect
          · cases hstep
      | datagram | pick | dial | send => cases hf
    · rw [hloop] at h
      cases h
  | brokerCloses id =>
    simp only [ClientBinding.step] at h
    split at h
    · cases h
      exact ⟨hloop, hdirect, closed_modify (fun _ => rfl) hbroker id⟩
    · cases h
  | brokerForgets id =>
    simp only [ClientBinding.step] at h
    split at h
    · cases h
    · split at h
      · cases h
        exact ⟨hloop, hdirect, hbroker⟩
      · cases h
  | received r src payload =>
    simp only [ClientBinding.step] at h
    split at h
    · split at h
      · cases h
        exact ⟨hloop, hdirect, hbroker⟩
      · split at h <;> cases h <;> exact ⟨hloop, hdirect, hbroker⟩
    · cases h
  | written r ok =>
    simp only [ClientBinding.step] at h
    split at h
    · cases h
    · cases h
      exact ⟨hloop, hdirect, hbroker⟩

theorem directTable_closeAll (s : ClientBinding.State) :
    directTable (closeAllSessions s).relay = (directTable s.relay).closeAll := by
  have hmap := @map_mapIdx _ _ (fun x : Direct.DirectSession => (x.target, x.closed))
    (fun i x => if s.relay.directSessions x.target = some i then { x with closed := true } else x)
    (fun i x => if s.relay.directSessions x.1 = some i then (x.1, true) else x)
    (fun i x => by split <;> rfl) s.relay.sessions
  exact congrArg (Table.mk · fun _ => none) hmap

theorem brokerTable_closeAll (s : ClientBinding.State) :
    brokerTable (closeAllSessions s) = (brokerTable s).closeAll := by
  have hmap := @map_mapIdx _ _ (fun x : ClientBinding.BrokerSession => (x.key, x.closed))
    (fun i x => if s.brokerSessions x.key = some i then { x with closed := true } else x)
    (fun i x => if s.brokerSessions x.1 = some i then (x.1, true) else x)
    (fun i x => by split <;> rfl) s.broker
  exact congrArg (Table.mk · fun _ => none) hmap

/-- The deferred call closes every session, not only those it knows of. -/
theorem released_closeAll (hi : Inv s) (hloop : s.loop = .stopped) : Released (closeAllSessions s) := by
  refine ⟨hloop, fun x hx => ?_, fun x hx => ?_⟩
  · obtain ⟨i, hx⟩ := List.mem_iff_getElem?.mp hx
    have hentry := getElem_directTable hx
    rw [directTable_closeAll] at hentry
    refine Bool.of_not_eq_false fun hopen => ?_
    rw [hopen] at hentry
    exact hi.direct.sound.closeAll i x.target hentry
  · obtain ⟨i, hx⟩ := List.mem_iff_getElem?.mp hx
    have hentry := getElem_brokerTable hx
    rw [brokerTable_closeAll] at hentry
    refine Bool.of_not_eq_false fun hopen => ?_
    rw [hopen] at hentry
    exact hi.broker.closeAll i x.key hentry

/-- Before the handler returns the tables are sound, afterwards nothing is open. -/
structure Lifetime (s : State) : Prop where
  running : s.returned = false → Inv s.association
  released : s.returned = true → Released s.association

theorem lifetime_step {s t : State} {e : Event} (hi : Lifetime s) (h : step routeDirect s e = some t) :
    Lifetime t := by
  cases e with
  | act e =>
    obtain ⟨a, ha, rfl⟩ := Option.map_eq_some_iff.mp h
    exact ⟨fun hr => inv_step (hi.running hr) ha, fun hr => released_step (hi.released hr) ha⟩
  | returns =>
    simp only [step] at h
    split at h
    · rename_i hr hloop
      cases h
      exact ⟨fun hno => absurd hno (by simp), fun _ => released_closeAll (hi.running hr) hloop⟩
    · cases h

/-- No two sessions that are not closed have one key. -/
def OneOpen {α : Type} (key : α → Bytes) (closed : α → Bool) (l : List α) : Prop :=
  ∀ (i j : Nat) (x y : α), l[i]? = some x → l[j]? = some y → closed x = false → closed y = false →
    key x = key y → i = j

theorem oneOpen_of_sound {α : Type} {key : α → Bytes} {closed : α → Bool} {l : List α}
    {lookup : Bytes → Option Nat} (h : Table.Sound ⟨l.map fun x => (key x, closed x), lookup⟩) :
    OneOpen key closed l := by
  intro i j x y hx hy hxo hyo hkey
  refine h.unique (k := key y) ?_ ?_
  · rw [List.getElem?_map, hx, ← hkey, ← hxo]
    rfl
  · rw [List.getElem?_map, hy, ← hyo]
    rfl

/-- An association has at most one open socket for a concrete target and at most one
open broker session for a route and target, whatever the reading goroutines close,
and once its handler has returned it has none and gets none. -/
theorem udp_sessions_released (routeDirect : Route) (es : List Event) (s : State)
    (hr : run (step routeDirect) initial es = some s) :
    (s.returned = false →
      OneOpen Direct.DirectSession.target Direct.DirectSession.closed s.association.relay.sessions ∧
      OneOpen ClientBinding.BrokerSession.key ClientBinding.BrokerSession.closed
        s.association.broker) ∧
    (s.returned = true →
      (∀ x ∈ s.association.relay.sessions, x.closed = true) ∧
        ∀ x ∈ s.association.broker, x.closed = true) := by
  have hi : Lifetime s := run_preserves (fun _ _ _ => lifetime_step)
    ⟨fun _ => inv_start, fun h => absurd h (by simp [initial])⟩ hr
  refine ⟨fun hrun => ?_, fun hret => ⟨(hi.released hret).direct, (hi.released hret).broker⟩⟩
  have hinv := hi.running hrun
  exact ⟨oneOpen_of_sound hinv.direct.sound, oneOpen_of_sound hinv.broker⟩

/-- One datagram through the broker, and the end of the control connection. -/
def oneSession : List Event :=
  [.act (ClientBinding.sendsTo (HTTPConnect.ascii "y")), .act .pickBroker, .act (.dialBroker true),
    .act (.sendBroker true), .act .stop, .returns]

theorem udp_sessions_released_example : ∃ s,
    run (step (HTTPConnect.ascii "direct")) initial oneSession = some s ∧
      s.association.broker.length = 1 ∧ ∀ x ∈ s.association.broker, x.closed = true := by
  have hrun : (run (step (HTTPConnect.ascii "direct")) initial oneSession).map
      (fun s => (s.returned, s.association.broker.length)) = some (true, 1) := by decide +kernel
  obtain ⟨s, hs, heq⟩ := Option.map_eq_some_iff.mp hrun
  obtain ⟨hret, hlen⟩ := Prod.mk.inj heq
  exact ⟨s, hs, hlen, ((udp_sessions_released _ oneSession s hs).2 hret).2⟩

end SplitProxy.UDPLifetime
