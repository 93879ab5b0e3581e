import SplitProxy.ClientBinding

/-!
# Broker sessions and their keys

`brokerSessions` finds a session by one text, the route and the target with a bar
between them. Beside each run stands a record of what every session was opened
for and of what every payload was meant for.
-/
namespace SplitProxy.ClientBinding

open GoText NetIP HTTPConnect Routing Socks5 Runs

structure Record where
  state : State
  /-- the route and target given to `handleUDPBroker`, session by session -/
  opened : List (Route × Bytes)
  /-- the route `ResolveRoute` gave for the datagram in work -/
  route : Route
  /-- each payload handed to a broker session: its datagram's route and target, and the session -/
  sends : List (Route × Bytes × Nat)

def unrecorded : Record := ⟨start, [], [], []⟩

/-- The session is there and not closed. -/
def isOpen (sessions : List BrokerSession) (id : Nat) : Bool := (sessions[id]?).any fun x => !x.closed

/-- What the step from `r.state` to `t` adds to the record. -/
def Record.next (r : Record) (e : Event) (t : State) : Record where
  state := t
  opened := match r.state.loop with
    | .opening _ packet route =>
      if r.state.broker.length < t.broker.length then r.opened ++ [(route, udpTarget packet)]
      else r.opened
    | _ => r.opened
  route := match t.loop with
    | .picking _ _ route => route
    | _ => r.route
  sends := match e, r.state.loop with
    | .sendBroker _, .sending _ packet id =>
      if isOpen r.state.broker id then (r.route, udpTarget packet, id) :: r.sends else r.sends
    | _, _ => r.sends

def recordStep (routeDirect : Route) (r : Record) (e : Event) : Option Record :=
  (step routeDirect r.state e).map (r.next e)

/-- Every payload is sent on a session opened for its route and target, and every
reply made from a session carries the target that one was opened for. -/
structure OwnSession (r : Record) : Prop where
  sent : ∀ x ∈ r.sends, r.opened[x.2.2]? = some (x.1, x.2.1)
  labelled : ∀ id d, r.state.pending (.broker id) = some d → ∃ route target payload,
    r.opened[id]? = some (route, target) ∧ d.2 = buildSOCKS5UDPResponseFromTarget target payload

/-- The route and target a session is looked up for in this step. -/
def askedFor (s : State) (e : Event) : Option (Route × Bytes) :=
  match e, s.loop with
  | .pickBroker, .picking _ packet route => some (route, udpTarget packet)
  | _, _ => none

/-- A session that is open under the key looked up was opened for the route and target. -/
def KeyApart (r : Record) (e : Event) : Prop :=
  ∀ asked ∈ askedFor r.state e, ∀ p ∈ r.state.broker.zip r.opened, p.1.closed = false →
    getSessionKey p.2.1 p.2.2 = getSessionKey asked.1 asked.2 → p.2 = asked

instance (r : Record) (e : Event) : Decidable (KeyApart r e) :=
  inferInstanceAs (Decidable (∀ asked ∈ _, _))

variable {routeDirect : Route} {r t : Record} {e : Event} {opened : List (Route × Bytes)}
  {broker : List BrokerSession} {sessions : Bytes → Option Nat} {key : Bytes} {id : Nat}
  {x : BrokerSession}

/-! ## The table of sessions -/

/-- The sessions are those opened, and the map holds the open ones under their keys. -/
structure Tabled (opened : List (Route × Bytes)) (broker : List BrokerSession)
    (sessions : Bytes → Option Nat) : Prop where
  recorded : broker.map (fun x => (x.key, x.target)) =
    opened.map fun p => (getSessionKey p.1 p.2, p.2)
  named : ∀ key id, sessions key = some id → ∃ x, broker[id]? = some x ∧ x.key = key
  stored : ∀ id x, broker[id]? = some x → x.closed = false → sessions x.key = some id

theorem Tabled.get (h : Tabled opened broker sessions) (hx : broker[id]? = some x) :
    ∃ route, opened[id]? = some (route, x.target) ∧ x.key = getSessionKey route x.target := by
  have hget := congrArg (fun l => l[id]?) h.recorded
  simp only [List.getElem?_map, hx, Option.map_some] at hget
  obtain ⟨⟨route, target⟩, hp, he⟩ := Option.map_eq_some_iff.mp hget.symm
  simp only [Prod.mk.injEq] at he
  obtain ⟨hkey, rfl⟩ := he
  exact ⟨route, hp, hkey.symm⟩

theorem Tabled.length (h : Tabled opened broker sessions) : opened.length = broker.length := by
  have hl := congrArg List.length h.recorded
  rw [List.length_map, List.length_map] at hl
  exact hl.symm

theorem isOpen_iff : isOpen broker id = true ↔ ∃ x, broker[id]? = some x ∧ x.closed = false := by
  rw [isOpen]
  cases broker[id]? with
  | none => simp
  | some x => simp

theorem live_iff {s : State} :
    live s key = some id ↔ s.brokerSessions key = some id ∧ isOpen s.broker id = true := by
  rw [live, Option.filter_eq_some_iff]
  rfl

/-- No session that is open has the key. -/
def NoOpen (broker : List BrokerSession) (key : Bytes) : Prop :=
  ∀ (id : Nat) (x : BrokerSession), broker[id]? = some x → x.closed = false → x.key ≠ key

theorem noOpen_of_live {s : State} (h : Tabled opened s.broker s.brokerSessions)
    (hl : live s key = none) : NoOpen s.broker key := by
  rintro id x hx hc rfl
  have hlive := live_iff.mpr ⟨h.stored id x hx hc, isOpen_iff.mpr ⟨x, hx, hc⟩⟩
  rw [hl] at hlive
  cases hlive

theorem closeBroker_get {j : Nat} (hx : (closeBroker broker id)[j]? = some x) :
    ∃ y, broker[j]? = some y ∧ x.key = y.key ∧ x.target = y.target ∧
      (x.closed = false → y = x ∧ j ≠ id) := by
  rw [closeBroker, List.getElem?_modify] at hx
  obtain ⟨y, hy, rfl⟩ := Option.map_eq_some_iff.mp hx
  refine ⟨y, hy, ?_⟩
  by_cases hj : id = j
  · simp [hj]
  · simp [hj, Ne.symm hj]

/-- Closing a session leaves the table as it is. -/
theorem Tabled.close (h : Tabled opened broker sessions) (id : Nat) :
    Tabled opened (closeBroker broker id) sessions := by
  refine ⟨?_, fun key j hj => ?_, fun j x hx hc => ?_⟩
  · rw [← h.recorded]
    apply List.ext_getElem?
    intro j
    simp only [List.getElem?_map, closeBroker, List.getElem?_modify]
    cases broker[j]? with
    | none => rfl
    | some y => by_cases hj : id = j <;> simp [hj]
  · obtain ⟨y, hy, rfl⟩ := h.named key j hj
    have hx : (closeBroker broker id)[j]? = some (if id = j then { y with closed := true } else y) := by
      rw [closeBroker, List.getElem?_modify, hy]
      by_cases hj : id = j <;> simp [hj]
    refine ⟨_, hx, ?_⟩
    split <;> rfl
  · obtain ⟨y, hy, -, -, hopen⟩ := closeBroker_get hx
    obtain ⟨rfl, -⟩ := hopen hc
    exact h.stored j y hy hc

/-- A key may be dropped when no open session has it. -/
theorem Tabled.drop (h : Tabled opened broker sessions)
    (hno : NoOpen broker key) :
    Tabled opened broker (Function.update sessions key none) := by
  refine ⟨h.recorded, fun key' j hj => ?_, fun j x hx hc => ?_⟩
  · by_cases hk : key' = key
    · rw [hk, Function.update_self] at hj
      cases hj
    · rw [Function.update_of_ne hk] at hj
      exact h.named key' j hj
  · rw [Function.update_of_ne (hno j x hx hc)]
    exact h.stored j x hx hc

theorem Tabled.forget (h : Tabled opened broker sessions) (hx : broker[id]? = some x)
    (hc : x.closed = true) : Tabled opened broker (Direct.forget sessions x.key id) := by
  unfold Direct.forget
  split
  · rename_i hm
    refine h.drop fun j y hy hopen hk => ?_
    have hj := h.stored j y hy hopen
    rw [hk, hm] at hj
    cases hj
    rw [hx] at hy
    cases hy
    rw [hc] at hopen
    cases hopen
  · exact h

/-- A session that is opened under a key no open session has. -/
theorem Tabled.open (h : Tabled opened broker sessions) (route : Route) (target : Bytes)
    (hno : NoOpen broker (getSessionKey route target)) :
    Tabled (opened ++ [(route, target)]) (broker ++ [⟨getSessionKey route target, target, false⟩])
      (Function.update sessions (getSessionKey route target) (some broker.length)) := by
  refine ⟨?_, fun key j hj => ?_, fun j x hx hc => ?_⟩
  · simp [h.recorded]
  · by_cases hk : key = getSessionKey route target
    · rw [hk, Function.update_self] at hj
      cases hj
      exact ⟨_, List.getElem?_concat_length, hk.symm⟩
    · rw [Function.update_of_ne hk] at hj
      obtain ⟨x, hx, he⟩ := h.named key j hj
      exact ⟨x, by rw [List.getElem?_append_left (List.getElem?_eq_some_iff.mp hx).1, hx], he⟩
  · by_cases hj : j < broker.length
    · rw [List.getElem?_append_left hj] at hx
      rw [Function.update_of_ne (hno j x hx hc)]
      exact h.stored j x hx hc
    · have hlen := (List.getElem?_eq_some_iff.mp hx).1
      rw [List.length_append, List.length_singleton] at hlen
      obtain rfl : j = broker.length := by omega
      rw [List.getElem?_concat_length] at hx
      cases hx
      exact Function.update_self ..


theorem live_of_noOpen {s : State} (h : Tabled opened s.broker s.brokerSessions)
    (hno : NoOpen s.broker key) : live s key = none := by
  by_contra hl
  obtain ⟨id, hl⟩ := Option.ne_none_iff_exists'.mp hl
  obtain ⟨hm, hopen⟩ := live_iff.mp hl
  obtain ⟨x, hx, hc⟩ := isOpen_iff.mp hopen
  obtain ⟨y, hy, hk⟩ := h.named key id hm
  rw [hx] at hy
  cases hy
  exact hno id x hx hc hk

theorem NoOpen.close (h : NoOpen broker key) (id : Nat) : NoOpen (closeBroker broker id) key := by
  intro j x hx hc
  obtain ⟨y, hy, -, -, hopen⟩ := closeBroker_get hx
  obtain ⟨rfl, -⟩ := hopen hc
  exact h j y hy hc

/-! ## What a step records -/

theorem recordStep_some (h : recordStep routeDirect r e = some t) :
    step routeDirect r.state e = some t.state ∧ t = r.next e t.state := by
  obtain ⟨s, hs, rfl⟩ := Option.map_eq_some_iff.mp h
  exact ⟨hs, rfl⟩

theorem opened_of_broker {s : State} (h : s.broker.length = r.state.broker.length) :
    (r.next e s).opened = r.opened := by
  simp only [Record.next]
  split
  · rw [if_neg (by omega)]
  · rfl

/-- The record only grows at its end. -/
theorem opened_grows (e : Event) (s : State) {pair : Route × Bytes} (h : r.opened[id]? = some pair) :
    (r.next e s).opened[id]? = some pair := by
  simp only [Record.next]
  split
  · split
    · rw [List.getElem?_append_left (List.getElem?_eq_some_iff.mp h).1, h]
    · exact h
  · exact h

theorem sends_step {s : State} {y : Route × Bytes × Nat} (h : y ∈ (r.next e s).sends) :
    y ∈ r.sends ∨ ∃ src packet id, r.state.loop = .sending src packet id ∧
      y = (r.route, udpTarget packet, id) := by
  simp only [Record.next] at h
  split at h
  · rename_i src packet id hloop
    split at h
    · rcases List.mem_cons.mp h with rfl | h
      · exact Or.inr ⟨src, packet, id, hloop, rfl⟩
      · exact Or.inl h
    · exact Or.inl h
  · exact Or.inl h

theorem mem_sends {src : UDPAddr} {packet : SOCKS5UDPPacket} (hloop : r.state.loop = .sending src packet id)
    (hopen : isOpen r.state.broker id = true) (ok : Bool) (s : State) :
    (r.route, udpTarget packet, id) ∈ (r.next (.sendBroker ok) s).sends := by
  simp only [Record.next, hloop, hopen, ↓reduceIte]
  exact List.mem_cons_self

/-- A response waits from when it is made until it is written. -/
theorem pending_step {s t : State} (h : step routeDirect s e = some t) {reader : Reader}
    {d : UDPAddr × Bytes} (hd : t.pending reader = some d) : s.pending reader = some d ∨
      ∃ src payload, response s src payload reader = some d.2 := by
  cases e with
  | received r src payload =>
    simp only [step] at h
    split at h
    · rename_i hreply
      split at h
      · cases h
        exact Or.inl hd
      · split at h
        · cases h
          exact Or.inl hd
        · cases h
          dsimp only at hd
          by_cases hr : reader = r
          · subst hr
            rw [Function.update_self] at hd
            cases hd
            exact Or.inr ⟨src, payload, hreply⟩
          · rw [Function.update_of_ne hr] at hd
            exact Or.inl hd
    · cases h
  | written r ok =>
    simp only [step] at h
    split at h
    · cases h
    · cases h
      dsimp only at hd
      by_cases hr : reader = r
      · subst hr
        rw [Function.update_self] at hd
        cases hd
      · rw [Function.update_of_ne hr] at hd
        exact Or.inl hd
  | datagram src d' =>
    obtain ⟨-, ⟨-, rfl⟩ | ⟨packet, a, -, -, -, hcase⟩⟩ := datagram_step h
    · exact Or.inl hd
    · rcases hcase with ⟨-, rfl⟩ | ⟨-, ⟨r, rfl⟩ | ⟨route, rfl⟩⟩ <;> exact Or.inl hd
  | direct f =>
    simp only [step] at h
    split at h
    · obtain ⟨r, -, rfl⟩ := Option.map_eq_some_iff.mp h
      exact Or.inl hd
    · split at h
      · obtain ⟨r, -, rfl⟩ := Option.map_eq_some_iff.mp h
        exact Or.inl hd
      · cases h
  | _ =>
    simp only [step] at h
    repeat' split at h
    all_goals cases h
    all_goals exact Or.inl hd

/-- The loop has a session with the broker, or is to open one. -/
def LoopPc.brokering : LoopPc → Bool
  | .opening _ _ _ | .sending _ _ _ => true
  | _ => false

theorem brokering_afterDirect (s : State) (src : UDPAddr) (payload : Bytes) (a : Direct.Association) :
    (afterDirect s src payload a).loop.brokering = false := by
  simp only [afterDirect]
  split <;> rfl

/-- Neither a datagram nor the direct path touches the sessions with the broker. -/
theorem direct_frame {s t : State} (h : step routeDirect s e = some t)
    (he : (∃ src d, e = .datagram src d) ∨ e = .stop ∨ ∃ f, e = .direct f) :
    t.broker = s.broker ∧ t.brokerSessions = s.brokerSessions ∧
      (t.loop = s.loop ∨ t.loop.brokering = false) := by
  rcases he with ⟨src, d, rfl⟩ | rfl | ⟨f, rfl⟩
  · obtain ⟨-, ⟨-, rfl⟩ | ⟨packet, a, -, -, -, hcase⟩⟩ := datagram_step h
    · exact ⟨rfl, rfl, Or.inl rfl⟩
    · rcases hcase with ⟨-, rfl⟩ | ⟨-, ⟨r, rfl⟩ | ⟨route, rfl⟩⟩
      · exact ⟨rfl, rfl, Or.inl rfl⟩
      · exact ⟨rfl, rfl, Or.inr (brokering_afterDirect _ _ _ _)⟩
      · exact ⟨rfl, rfl, Or.inr rfl⟩
  · simp only [step] at h
    split at h
    · cases h
      exact ⟨rfl, rfl, Or.inr rfl⟩
    · cases h
  · simp only [step] at h
    split at h
    · obtain ⟨a, -, rfl⟩ := Option.map_eq_some_iff.mp h
      exact ⟨rfl, rfl, Or.inl rfl⟩
    · split at h
      · obtain ⟨a, -, rfl⟩ := Option.map_eq_some_iff.mp h
        exact ⟨rfl, rfl, Or.inr (brokering_afterDirect _ _ _ _)⟩
      · cases h

/-! ## The invariant -/

/-- What holds of every record. -/
structure Kept (r : Record) : Prop where
  tabled : Tabled r.opened r.state.broker r.state.brokerSessions
  picking : ∀ src packet route, r.state.loop = .picking src packet route → r.route = route
  opening : ∀ src packet route, r.state.loop = .opening src packet route →
    r.route = route ∧ NoOpen r.state.broker (getSessionKey route (udpTarget packet))
  labelled : ∀ id d, r.state.pending (.broker id) = some d → ∃ route target payload,
    r.opened[id]? = some (route, target) ∧ d.2 = buildSOCKS5UDPResponseFromTarget target payload

/-- The session the loop has was opened for the datagram's route and target. -/
def Picked (r : Record) : Prop :=
  ∀ src packet id, r.state.loop = .sending src packet id →
    r.opened[id]? = some (r.route, udpTarget packet)

theorem labelled_step (hr : Kept r) {s : State} (h : step routeDirect r.state e = some s) (id : Nat)
    (d : UDPAddr × Bytes) (hd : s.pending (.broker id) = some d) : ∃ route target payload,
      (r.next e s).opened[id]? = some (route, target) ∧
        d.2 = buildSOCKS5UDPResponseFromTarget target payload := by
  rcases pending_step h hd with hd | ⟨src, payload, hreply⟩
  · obtain ⟨route, target, payload, hopened, he⟩ := hr.labelled id d hd
    exact ⟨route, target, payload, opened_grows e s hopened, he⟩
  · obtain ⟨x, hx, he⟩ := Option.map_eq_some_iff.mp hreply
    obtain ⟨route, hopened, -⟩ := hr.tabled.get hx
    exact ⟨route, x.target, payload, opened_grows e s hopened, he.symm⟩

/-- The step opens no session and picks none: the table stays in order and the loop
gets no work on the broker path. -/
structure Frame (r : Record) (s : State) : Prop where
  tabled : Tabled r.opened s.broker s.brokerSessions
  length : s.broker.length = r.state.broker.length
  noOpen : ∀ key, NoOpen r.state.broker key → NoOpen s.broker key
  loop : s.loop = r.state.loop ∨ s.loop.brokering = false

theorem frame_step (hr : Kept r) {s : State} (h : step routeDirect r.state e = some s)
    (hpick : e ≠ .pickBroker) (hdial : ∀ ok, e ≠ .dialBroker ok) : Frame r s := by
  have hdirect : ((∃ src d, e = .datagram src d) ∨ e = .stop ∨ ∃ f, e = .direct f) → Frame r s := by
    intro he
    obtain ⟨hb, hm, hl⟩ := direct_frame h he
    exact ⟨by rw [hb, hm]; exact hr.tabled, by rw [hb], fun key hno => by rw [hb]; exact hno, hl⟩
  have hlen : ∀ id, (closeBroker r.state.broker id).length = r.state.broker.length :=
    fun id => List.length_modify ..
  cases e with
  | datagram src d => exact hdirect (Or.inl ⟨src, d, rfl⟩)
  | stop => exact hdirect (Or.inr (Or.inl rfl))
  | direct f => exact hdirect (Or.inr (Or.inr ⟨f, rfl⟩))
  | pickBroker => exact absurd rfl hpick
  | dialBroker ok => exact absurd rfl (hdial ok)
  | sendBroker ok =>
    simp only [step] at h
    split at h
    · rename_i src packet id hloop
      split at h
      · cases h
      · rename_i x hx
        split at h
        · cases h
          exact ⟨hr.tabled, rfl, fun key hno => hno, Or.inr rfl⟩
        · split at h
          · cases h
            exact ⟨hr.tabled, rfl, fun key hno => hno, Or.inr rfl⟩
          · cases h
            have hclosed : (closeBroker r.state.broker id)[id]? = some { x with closed := true } := by
              simp [closeBroker, hx]
            have hforget := (hr.tabled.close id).forget hclosed rfl
            exact ⟨hforget, hlen id, fun key hno => hno.close id, Or.inr rfl⟩
    · cases h
  | brokerCloses id =>
    simp only [step] at h
    split at h
    · cases h
      exact ⟨hr.tabled.close id, hlen id, fun key hno => hno.close id, Or.inl rfl⟩
    · cases h
  | brokerForgets id =>
    simp only [step] at h
    split at h
    · cases h
    · rename_i x hx
      split at h
      · rename_i hc
        cases h
        exact ⟨hr.tabled.forget hx hc, rfl, fun key hno => hno, Or.inl rfl⟩
      · cases h
  | received reader src payload =>
    simp only [step] at h
    split at h
    · split at h
      · cases h
        exact ⟨hr.tabled, rfl, fun key hno => hno, Or.inl rfl⟩
      · split at h <;> cases h <;> exact ⟨hr.tabled, rfl, fun key hno => hno, Or.inl rfl⟩
    · cases h
  | written reader ok =>
    simp only [step] at h
    split at h
    · cases h
    · cases h
      exact ⟨hr.tabled, rfl, fun key hno => hno, Or.inl rfl⟩

theorem kept_frame (hr : Kept r) {s : State} (h : step routeDirect r.state e = some s)
    (hs : Frame r s) : Kept (r.next e s) := by
  have hopened := opened_of_broker (e := e) hs.length
  refine ⟨hopened ▸ hs.tabled, fun src packet route hp => ?_, fun src packet route ho => ?_,
    labelled_step hr h⟩
  · simp only [Record.next] at hp ⊢
    rw [hp]
  · have ho' : s.loop = .opening src packet route := ho
    rcases hs.loop with hl | hl
    · obtain ⟨hroute, hopen⟩ := hr.opening src packet route (hl ▸ ho')
      refine ⟨?_, hs.noOpen _ hopen⟩
      simp only [Record.next, ho']
      exact hroute
    · rw [ho'] at hl
      cases hl

theorem picked_frame (hp : Picked r) {s : State} (hs : Frame r s) : Picked (r.next e s) := by
  intro src packet id hloop
  have hloop' : s.loop = .sending src packet id := hloop
  rcases hs.loop with hl | hl
  · have hroute : (r.next e s).route = r.route := by
      simp only [Record.next, hloop']
    rw [opened_of_broker hs.length, hroute]
    exact hp src packet id (hl ▸ hloop')
  · rw [hloop'] at hl
    cases hl

/-- A session is reused, or the key is cleared for a new one. -/
theorem pick_step {s : State} (h : step routeDirect r.state .pickBroker = some s) :
    ∃ src packet route, r.state.loop = .picking src packet route ∧
      ((∃ id, live r.state (getSessionKey route (udpTarget packet)) = some id ∧
          s = { r.state with loop := .sending src packet id }) ∨
        (live r.state (getSessionKey route (udpTarget packet)) = none ∧
          s = { r.state with
            loop := .opening src packet route
            brokerSessions := Function.update r.state.brokerSessions
              (getSessionKey route (udpTarget packet)) none })) := by
  simp only [step] at h
  split at h
  · rename_i src packet route hloop
    refine ⟨src, packet, route, hloop, ?_⟩
    split at h
    · rename_i id hl
      cases h
      exact Or.inl ⟨id, hl, rfl⟩
    · rename_i hl
      cases h
      exact Or.inr ⟨hl, rfl⟩
  · cases h

theorem kept_pick (hr : Kept r) {s : State} (h : step routeDirect r.state .pickBroker = some s) :
    Kept (r.next .pickBroker s) := by
  have hlabel := labelled_step hr h
  obtain ⟨src, packet, route, hloop, ⟨id, -, rfl⟩ | ⟨hlive, rfl⟩⟩ := pick_step h
  · have hopened := opened_of_broker (r := r) (e := .pickBroker)
      (s := { r.state with loop := .sending src packet id }) rfl
    exact ⟨hopened ▸ hr.tabled, nofun, nofun, hlabel⟩
  · have hno := noOpen_of_live hr.tabled hlive
    have hopened := opened_of_broker (r := r) (e := .pickBroker)
      (s := { r.state with
        loop := .opening src packet route
        brokerSessions := Function.update r.state.brokerSessions
          (getSessionKey route (udpTarget packet)) none }) rfl
    refine ⟨hopened ▸ hr.tabled.drop hno, nofun, fun src' packet' route' ho => ?_, hlabel⟩
    cases ho
    exact ⟨hr.picking src packet route hloop, hno⟩

/-- The session reused is one that was opened for the same, when the keys say so. -/
theorem picked_pick (hr : Kept r) {s : State} (hC : KeyApart r .pickBroker)
    (h : step routeDirect r.state .pickBroker = some s) : Picked (r.next .pickBroker s) := by
  obtain ⟨src, packet, route, hloop, ⟨id, hlive, rfl⟩ | ⟨-, rfl⟩⟩ := pick_step h
  · intro src' packet' id' hs
    cases hs
    obtain ⟨hm, hopen⟩ := live_iff.mp hlive
    obtain ⟨x, hx, hc⟩ := isOpen_iff.mp hopen
    obtain ⟨y, hy, hk⟩ := hr.tabled.named _ id hm
    rw [hx] at hy
    cases hy
    obtain ⟨route', hopened, hkey⟩ := hr.tabled.get hx
    have hzip : (x, (route', x.target)) ∈ r.state.broker.zip r.opened :=
      List.mem_of_getElem? (by rw [List.getElem?_zip_eq_some]; exact ⟨hx, hopened⟩ : _ = some _)
    have hasked : askedFor r.state .pickBroker = some (route, udpTarget packet) := by
      simp only [askedFor, hloop]
    have hsame : (route', x.target) = (route, udpTarget packet) :=
      hC _ hasked _ hzip hc (hkey.symm.trans hk)
    rw [hsame] at hopened
    have hroute : (r.next .pickBroker { r.state with loop := .sending src packet id }).route = route :=
      hr.picking src packet route hloop
    rw [hroute]
    exact opened_grows _ _ hopened
  · exact nofun

/-- No other session can have come up under the key while one is opened. -/
theorem dial_step (hr : Kept r) {ok : Bool} {s : State}
    (h : step routeDirect r.state (.dialBroker ok) = some s) :
    ∃ src packet route, r.state.loop = .opening src packet route ∧
      ((ok = false ∧ s = { r.state with loop := .reading }) ∨
        (ok = true ∧ s = { r.state with
            loop := .sending src packet r.state.broker.length
            broker := r.state.broker ++
              [⟨getSessionKey route (udpTarget packet), udpTarget packet, false⟩]
            brokerSessions := Function.update r.state.brokerSessions
              (getSessionKey route (udpTarget packet)) (some r.state.broker.length) })) := by
  simp only [step] at h
  split at h
  · rename_i src packet route hloop
    refine ⟨src, packet, route, hloop, ?_⟩
    have hlive := live_of_noOpen hr.tabled (hr.opening src packet route hloop).2
    split at h
    · rename_i hok
      rw [hlive] at h
      cases h
      exact Or.inr ⟨hok, rfl⟩
    · rename_i hok
      cases h
      exact Or.inl ⟨by simpa using hok, rfl⟩
  · cases h

theorem dial_next (hr : Kept r) {ok : Bool} {s : State}
    (h : step routeDirect r.state (.dialBroker ok) = some s) :
    Kept (r.next (.dialBroker ok) s) ∧ (Picked r → Picked (r.next (.dialBroker ok) s)) := by
  have hlabel := labelled_step hr h
  obtain ⟨src, packet, route, hloop, ⟨-, rfl⟩ | ⟨-, rfl⟩⟩ := dial_step hr h
  · have hframe : Frame r { r.state with loop := .reading } :=
      ⟨hr.tabled, rfl, fun key hno => hno, Or.inr rfl⟩
    exact ⟨kept_frame hr h hframe, fun hp => picked_frame hp hframe⟩
  · obtain ⟨hroute, hno⟩ := hr.opening src packet route hloop
    have hopened : ∀ s : State, s.broker.length = r.state.broker.length + 1 →
        (r.next (.dialBroker ok) s).opened = r.opened ++ [(route, udpTarget packet)] := by
      intro s hlen
      simp only [Record.next, hloop]
      rw [if_pos (by omega)]
    refine ⟨⟨?_, nofun, nofun, hlabel⟩, fun _ src' packet' id hs => ?_⟩
    · rw [hopened _ (by simp)]
      exact hr.tabled.open route (udpTarget packet) hno
    · cases hs
      rw [hopened _ (by simp), ← hr.tabled.length, List.getElem?_concat_length]
      exact congrArg (fun x => some (x, udpTarget packet)) hroute.symm

theorem kept_step (hr : Kept r) (h : recordStep routeDirect r e = some t) : Kept t := by
  obtain ⟨hs, ht⟩ := recordStep_some h
  rw [ht]
  by_cases hpick : e = .pickBroker
  · subst hpick
    exact kept_pick hr hs
  · by_cases hdial : ∃ ok, e = .dialBroker ok
    · obtain ⟨ok, rfl⟩ := hdial
      exact (dial_next hr hs).1
    · exact kept_frame hr hs (frame_step hr hs hpick fun ok he => hdial ⟨ok, he⟩)

theorem picked_step (hr : Kept r) (hp : Picked r) (hC : KeyApart r e)
    (h : recordStep routeDirect r e = some t) : Picked t := by
  obtain ⟨hs, ht⟩ := recordStep_some h
  rw [ht]
  by_cases hpick : e = .pickBroker
  · subst hpick
    exact picked_pick hr hC hs
  · by_cases hdial : ∃ ok, e = .dialBroker ok
    · obtain ⟨ok, rfl⟩ := hdial
      exact (dial_next hr hs).2 hp
    · exact picked_frame hp (frame_step hr hs hpick fun ok he => hdial ⟨ok, he⟩)

theorem ownSession_step (hr : Kept r) (hp : Picked r) (ho : OwnSession r)
    (h : recordStep routeDirect r e = some t) : OwnSession t := by
  have ht := kept_step hr h
  obtain ⟨-, he⟩ := recordStep_some h
  refine ⟨fun x hx => ?_, ht.labelled⟩
  rw [he] at hx ⊢
  rcases sends_step hx with hx | ⟨src, packet, id, hloop, rfl⟩
  · exact opened_grows e t.state (ho.sent x hx)
  · exact opened_grows e t.state (hp src packet id hloop)

theorem kept_unrecorded : Kept unrecorded where
  tabled := ⟨rfl, nofun, nofun⟩
  picking := nofun
  opening := nofun
  labelled := nofun

theorem askedFor_some {s : State} {asked : Route × Bytes} (h : askedFor s e = some asked) :
    e = .pickBroker ∧
      ∃ src packet, s.loop = .picking src packet asked.1 ∧ udpTarget packet = asked.2 := by
  unfold askedFor at h
  split at h
  · rename_i src packet route hloop
    cases h
    exact ⟨rfl, src, packet, hloop, rfl⟩
  · cases h

/-- A look-up that finds a session of another route or target sends the payload there. -/
theorem misled (hr : Kept r) (hC : ¬KeyApart r e) :
    ∃ t, run (recordStep routeDirect) r [e, .sendBroker true] = some t ∧ ¬OwnSession t := by
  simp only [KeyApart, Classical.not_forall] at hC
  obtain ⟨⟨route, target⟩, hasked, ⟨x, pair⟩, hzip, hc, hkey, hne⟩ := hC
  obtain ⟨rfl, src, packet, hloop, rfl⟩ := askedFor_some hasked
  obtain ⟨id, hid⟩ := List.getElem?_of_mem hzip
  obtain ⟨hx, hpair⟩ := List.getElem?_zip_eq_some.mp hid
  simp only at hx hpair hc hkey hne hloop
  obtain ⟨route', hopened, hxkey⟩ := hr.tabled.get hx
  rw [hpair] at hopened
  cases hopened
  have hm := hr.tabled.stored id x hx hc
  rw [hxkey, hkey] at hm
  have hlive := live_iff.mpr ⟨hm, isOpen_iff.mpr ⟨x, hx, hc⟩⟩
  have hpick : step routeDirect r.state .pickBroker =
      some { r.state with loop := .sending src packet id } := by
    simp only [step, hloop, hlive]
  have hsend : step routeDirect { r.state with loop := .sending src packet id } (.sendBroker true) =
      some { r.state with
        loop := .reading
        forwarded := (src, packet.payload) :: r.state.forwarded } := by
    simp [step, hx, hc]
  have hone : recordStep routeDirect r .pickBroker =
      some (r.next .pickBroker { r.state with loop := .sending src packet id }) := by
    rw [recordStep, hpick]
    rfl
  have htwo : recordStep routeDirect (r.next .pickBroker { r.state with loop := .sending src packet id })
      (.sendBroker true) = some ((r.next .pickBroker { r.state with loop := .sending src packet id }).next
        (.sendBroker true) { r.state with
          loop := .reading
          forwarded := (src, packet.payload) :: r.state.forwarded }) :=
    congrArg (Option.map _) hsend
  refine ⟨_, by rw [run_cons, hone, Option.bind_some, run_cons, htwo]; rfl, fun ho => ?_⟩
  have hroute : (r.next .pickBroker { r.state with loop := .sending src packet id }).route = route :=
    hr.picking src packet route hloop
  have hmem := @mem_sends (r.next .pickBroker { r.state with loop := .sending src packet id }) id src
    packet rfl (isOpen_iff.mpr ⟨x, hx, hc⟩) true
  have hsent := ho.sent _ (hmem _)
  rw [opened_grows _ _ (opened_grows _ _ hpair), hroute] at hsent
  exact hne (Option.some.inj hsent)

/-- Payloads go out on sessions of their own, and replies carry the target of theirs, in
every run in which no look-up meets an open session of another route or target with the
same key; a look-up that does is one step from sending a payload on it. -/
theorem own_sessions (routeDirect : Route) (es : List Event)
    (hC : Meets (recordStep routeDirect) KeyApart unrecorded es) :
    Always (recordStep routeDirect) OwnSession unrecorded es ∧
      ∀ fs r e, run (recordStep routeDirect) unrecorded fs = some r → ¬KeyApart r e →
        ∃ t, run (recordStep routeDirect) r [e, .sendBroker true] = some t ∧ ¬OwnSession t := by
  refine ⟨?_, fun fs r e hrun hno =>
    misled (run_preserves (fun _ _ _ => kept_step) kept_unrecorded hrun) hno⟩
  refine always_of_invariant (I := fun r => Kept r ∧ Picked r ∧ OwnSession r) ?_ (fun r h => h.2.2) ?_ hC
  · rintro r e t ⟨hr, hp, ho⟩ hC h
    exact ⟨kept_step hr h, picked_step hr hp hC h, ownSession_step hr hp ho h⟩
  · exact ⟨kept_unrecorded, nofun, nofun, nofun⟩

/-- Keys tell routes and targets apart where no route has a bar in its name. -/
theorem getSessionKey_inj {r₁ r₂ : Route} {t₁ t₂ : Bytes} (h₁ : 0x7C ∉ r₁) (h₂ : 0x7C ∉ r₂)
    (h : getSessionKey r₁ t₁ = getSessionKey r₂ t₂) : (r₁, t₁) = (r₂, t₂) := by
  have hsplit := congrArg (splitFirst 0x7C) h
  rw [getSessionKey, getSessionKey, splitFirst_append h₁, splitFirst_append h₂] at hsplit
  exact Option.some.inj hsplit

theorem keyApart_of_barless (hopened : ∀ p ∈ r.opened, 0x7C ∉ p.1)
    (hasked : ∀ asked ∈ askedFor r.state e, 0x7C ∉ asked.1) : KeyApart r e := by
  rintro asked ha ⟨x, pair⟩ hp - hkey
  exact getSessionKey_inj (hopened pair (List.of_mem_zip hp).2) (hasked asked ha) hkey

/-! ## Two runs -/

/-- `y` goes to the group `eu|x`, all else to `eu`. -/
def barRoutes : RouteCache :=
  ⟨fun n => if n = ascii "y" then some (ascii "eu|x") else none, .nil, .empty, ascii "eu"⟩

/-- The client sends `p` to port 53 of a host of these bytes. -/
def sendsTo (host : Bytes) : Event :=
  .datagram ⟨.v4 0x0A000005, 4444, [], by decide, rfl⟩
    ⟨[0, 0, 0, 3, UInt8.ofNat host.length] ++ host ++ [0, 53, 0x70], fun _ => none, some barRoutes⟩

/-- The second datagram to a target goes out on the session of the first. -/
theorem same_target_shared :
    Always (recordStep (ascii "direct")) OwnSession unrecorded
        [sendsTo (ascii "y"), .pickBroker, .dialBroker true, .sendBroker true,
          sendsTo (ascii "y"), .pickBroker, .sendBroker true] ∧
      ∀ fs r e, run (recordStep (ascii "direct")) unrecorded fs = some r → ¬KeyApart r e →
        ∃ t, run (recordStep (ascii "direct")) r [e, .sendBroker true] = some t ∧ ¬OwnSession t :=
  own_sessions (ascii "direct")
    [sendsTo (ascii "y"), .pickBroker, .dialBroker true, .sendBroker true,
      sendsTo (ascii "y"), .pickBroker, .sendBroker true] (by decide +kernel)

/-- A payload for `y:53` by way of `eu|x` goes to `x|y:53` by way of `eu`. -/
theorem bar_misleads : ¬∀ routeDirect es, Always (recordStep routeDirect) OwnSession unrecorded es := by
  intro h
  let es : List Event := [sendsTo (ascii "x|y"), .pickBroker, .dialBroker true, .sendBroker true,
    sendsTo (ascii "y"), .pickBroker, .sendBroker true]
  have hrun : (run (recordStep (ascii "direct")) unrecorded es).map (fun r => (r.opened, r.sends)) =
      some ([(ascii "eu", ascii "x|y:53")],
        [(ascii "eu|x", ascii "y:53", 0), (ascii "eu", ascii "x|y:53", 0)]) := by decide +kernel
  obtain ⟨r, hr, hs⟩ := Option.map_eq_some_iff.mp hrun
  have hown := h (ascii "direct") es es [] r (List.append_nil es).symm hr
  obtain ⟨hopened, hsends⟩ := Prod.mk.inj hs
  have hsent := hown.sent (ascii "eu|x", ascii "y:53", 0) (by rw [hsends]; simp)
  rw [hopened] at hsent
  exact absurd hsent (by decide)

end SplitProxy.ClientBinding
