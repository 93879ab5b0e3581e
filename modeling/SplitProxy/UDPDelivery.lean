import Mathlib.Data.List.Perm.Subperm
import SplitProxy.ClientBinding
import SplitProxy.HandleConn

/-!
# What a UDP association passes on

Beside the association stands what it was given, by its client and by the targets,
and what it has passed on of it. All four lists have the latest first.
-/
namespace SplitProxy.UDPDelivery

open Runs ClientBinding Socks5
open Routing (Route)
open HandleConn (Path)

structure State where
  association : ClientBinding.State
  /-- the payload of each datagram that has passed the binding, with its source -/
  accepted : List (UDPAddr × Bytes)
  sent : List (Path × UDPAddr × Bytes)
  /-- what the reading goroutines have got, with its source -/
  received : List (Reader × UDPAddr × Bytes)
  replied : List (Reader × UDPAddr × Bytes)

def start : State := ⟨ClientBinding.start, [], [], [], []⟩

/-- What the relay loop goes on with. -/
def acceptedOf (a : ClientBinding.State) : Event → Option (UDPAddr × Bytes)
  | .datagram src d =>
    match parseSOCKS5UDPRequest d.data with
    | none => none
    | some packet =>
      if (bindClientUDPAddr a.clientUDPAddr src).2 then some (src, packet.payload) else none
  | _ => none

/-- What is sent without an error, in `sendDirectUDP` or on a broker session. -/
def sends (a : ClientBinding.State) : Event → Option (Path × UDPAddr × Bytes)
  | .direct (.send true) =>
    match a.loop, a.relay.pc with
    | .direct src payload, .sending _ _ id _ =>
      if (a.relay.sessions[id]?).any fun x => !x.closed then some (.direct, src, payload) else none
    | _, _ => none
  | .sendBroker true =>
    match a.loop with
    | .sending src packet id =>
      if (a.broker[id]?).any fun x => !x.closed then some (.worker, src, packet.payload) else none
    | _ => none
  | _ => none

/-- The part of a list that belongs to one session. -/
def bySession (r : Reader) (l : List (Reader × UDPAddr × Bytes)) : List (UDPAddr × Bytes) :=
  (l.filter fun x => x.1 = r).map Prod.snd

def gets : Event → Option (Reader × UDPAddr × Bytes)
  | .received r src payload => some (r, src, payload)
  | _ => none

/-- What is written to the client without an error. -/
def answers (s : State) : Event → Option (Reader × UDPAddr × Bytes)
  | .written r true => (bySession r s.received).head?.map fun x => (r, x)
  | _ => none

def State.next (s : State) (e : Event) (a : ClientBinding.State) : State where
  association := a
  accepted := (acceptedOf s.association e).toList ++ s.accepted
  sent := (sends s.association e).toList ++ s.sent
  received := (gets e).toList ++ s.received
  replied := (answers s e).toList ++ s.replied

def step (routeDirect : Route) (s : State) (e : Event) : Option State :=
  (ClientBinding.step routeDirect s.association e).map (s.next e)

/-- What the loop is working on. -/
def inHand : LoopPc → Option (UDPAddr × Bytes)
  | .direct src payload => some (src, payload)
  | .picking src packet _ => some (src, packet.payload)
  | .opening src packet _ => some (src, packet.payload)
  | .sending src packet _ => some (src, packet.payload)
  | .reading => none
  | .stopped => none

/-- What a reading goroutine is about to write. -/
def writing (s : State) (r : Reader) : Option (UDPAddr × Bytes) :=
  if (s.association.pending r).isSome then (bySession r s.received).head? else none

variable {routeDirect : Route} {a b : ClientBinding.State} {s t : State} {e : Event}

/-! ## The datagrams of the client -/

/-- The direct path sends at most one payload for a datagram, and is then done with it. -/
theorem direct_sent {f : Direct.Event} {x y : Direct.Association}
    (h : Direct.step routeDirect x f = some y) :
    y.sent = x.sent ∧ (f = .send true → ∀ packet target id ips,
        x.pc = .sending packet target id ips → (x.sessions[id]?).any (fun z => !z.closed) = false) ∨
      f = .send true ∧ y.pc = .reading ∧ y.sent.length = x.sent.length + 1 ∧
        ∃ packet target id ips, x.pc = .sending packet target id ips ∧
          (x.sessions[id]?).any (fun z => !z.closed) = true := by
  cases f with
  | send ok =>
    simp only [Direct.step] at h
    split at h
    · rename_i packet target id ips hpc
      split at h
      · cases h
      · rename_i z hz
        split at h
        · rename_i hok
          cases h
          refine Or.inr ⟨by rw [hok.1], rfl, rfl, packet, target, id, ips, hpc, ?_⟩
          rw [hz, Option.any_some, hok.2]
          rfl
        · rename_i hok
          cases h
          refine Or.inl ⟨rfl, fun hf packet' target' id' ips' hpc' => ?_⟩
          cases hf
          rw [hpc] at hpc'
          cases hpc'
          rw [hz, Option.any_some]
          simpa using hok
    · cases h
  | datagram d =>
    simp only [Direct.step] at h
    repeat' split at h
    all_goals cases h
    all_goals exact Or.inl ⟨rfl, fun hf => by cases hf⟩
  | pick | dial ok | readerCloses id | readerForgets id =>
    simp only [Direct.step] at h
    repeat' split at h
    all_goals cases h
    all_goals exact Or.inl ⟨rfl, fun hf => by cases hf⟩

/-- The loop after a step of its direct part, which may have sent the payload. -/
theorem afterDirect_cases {src : UDPAddr} {payload : Bytes} {y : Direct.Association} :
    (y.sent = a.relay.sent → (afterDirect a src payload y).forwarded = a.forwarded ∧
      ((afterDirect a src payload y).loop = .reading ∨
        (afterDirect a src payload y).loop = .direct src payload)) ∧
    (y.pc = .reading → y.sent.length = a.relay.sent.length + 1 →
      (afterDirect a src payload y).forwarded = (src, payload) :: a.forwarded ∧
        (afterDirect a src payload y).loop = .reading) := by
  constructor
  · intro hsent
    refine ⟨by simp only [afterDirect, hsent, ↓reduceIte], ?_⟩
    cases hpc : y.pc with
    | reading => exact Or.inl (by simp only [afterDirect, hpc])
    | _ => exact Or.inr (by simp only [afterDirect, hpc])
  · intro hpc hlength
    refine ⟨?_, by simp only [afterDirect, hpc]⟩
    simp only [afterDirect, hlength]
    rw [if_neg (by omega)]

/-- Everything a step of the direct part does to the association. -/
theorem direct_cases {f : Direct.Event}
    (h : ClientBinding.step routeDirect a (.direct f) = some b) :
    ∃ y, Direct.step routeDirect a.relay f = some y ∧
      (ofReader f = true ∧ b = { a with relay := y } ∨
        ∃ src payload, a.loop = .direct src payload ∧ b = afterDirect a src payload y) := by
  simp only [ClientBinding.step] at h
  split at h
  · rename_i hreader
    obtain ⟨y, hy, rfl⟩ := Option.map_eq_some_iff.mp h
    exact ⟨y, hy, Or.inl ⟨hreader, rfl⟩⟩
  · split at h
    · rename_i src payload hloop
      obtain ⟨y, hy, rfl⟩ := Option.map_eq_some_iff.mp h
      exact ⟨y, hy, Or.inr ⟨src, payload, hloop, rfl⟩⟩
    · cases h

/-- What is in hand and what has been forwarded after a step is part of what it was
before, behind the datagram of the step, in this order; and what is new was sent. -/
def PassesOn (a : ClientBinding.State) (e : Event) (b : ClientBinding.State) : Prop :=
  ((inHand b.loop).toList ++ b.forwarded).Sublist
    ((acceptedOf a e).toList ++ ((inHand a.loop).toList ++ a.forwarded)) ∧
  b.forwarded = (sends a e).toList.map Prod.snd ++ a.forwarded

theorem passesOn_datagram {src : UDPAddr} {d : Direct.Datagram}
    (h : ClientBinding.step routeDirect a (.datagram src d) = some b) :
    PassesOn a (.datagram src d) b := by
  simp only [ClientBinding.step] at h
  split at h
  · rename_i hloop
    split at h
    · cases h
      exact ⟨List.sublist_append_right _ _, rfl⟩
    · rename_i packet hparse
      unfold PassesOn
      rw [hloop]
      split at h
      · rename_i hbound
        have haccepted : acceptedOf a (.datagram src d) = some (src, packet.payload) := by
          simp only [acceptedOf, hparse, hbound, ↓reduceIte]
        rw [haccepted]
        split at h
        · obtain ⟨y, hy, rfl⟩ := Option.map_eq_some_iff.mp h
          rcases direct_sent hy with ⟨hsent, -⟩ | ⟨hf, -⟩
          · obtain ⟨hforwarded, hafter⟩ := (@afterDirect_cases
              { a with clientUDPAddr := (bindClientUDPAddr a.clientUDPAddr src).1 } src
              packet.payload y).1 hsent
            rw [hforwarded]
            refine ⟨?_, rfl⟩
            rcases hafter with hafter | hafter
            · rw [hafter]
              exact List.sublist_append_right _ _
            · rw [hafter]
              exact List.Sublist.refl _
          · cases hf
        · cases h
          exact ⟨List.Sublist.refl _, rfl⟩
      · cases h
        rw [hloop]
        exact ⟨List.sublist_append_right _ _, rfl⟩
  · cases h

theorem passesOn_direct {f : Direct.Event}
    (h : ClientBinding.step routeDirect a (.direct f) = some b) : PassesOn a (.direct f) b := by
  obtain ⟨y, hy, ⟨hreader, rfl⟩ | ⟨src, payload, hloop, rfl⟩⟩ := direct_cases h
  · have hsends : sends a (.direct f) = none := by cases f <;> first | rfl | cases hreader
    unfold PassesOn
    rw [hsends]
    exact ⟨List.Sublist.refl _, rfl⟩
  · unfold PassesOn
    rw [hloop]
    rcases direct_sent hy with ⟨hsent, hnone⟩ | ⟨rfl, hpc, hlength, packet, target, id, ips, hat, hopen⟩
    · obtain ⟨hforwarded, hafter⟩ := afterDirect_cases.1 hsent
      have hsends : sends a (.direct f) = none := by
        unfold sends
        split
        · rename_i hf
          cases hf
          rw [hloop]
          split
          · rename_i hat
            rw [if_neg (by simp [hnone rfl _ _ _ _ hat])]
          · rfl
        · rename_i hf
          cases hf
        · rfl
      rw [hforwarded, hsends]
      refine ⟨?_, rfl⟩
      rcases hafter with hafter | hafter
      · rw [hafter]
        exact List.sublist_append_right _ _
      · rw [hafter]
        exact List.Sublist.refl _
    · obtain ⟨hforwarded, hafter⟩ := afterDirect_cases.2 hpc hlength
      have hsends : sends a (.direct (.send true)) = some (.direct, src, payload) := by
        unfold sends
        rw [hloop, hat]
        exact if_pos hopen
      rw [hforwarded, hafter, hsends]
      exact ⟨List.Sublist.refl _, rfl⟩

theorem passesOn_sendBroker {ok : Bool}
    (h : ClientBinding.step routeDirect a (.sendBroker ok) = some b) :
    PassesOn a (.sendBroker ok) b := by
  simp only [ClientBinding.step] at h
  split at h
  · rename_i src packet id hloop
    unfold PassesOn
    rw [hloop]
    split at h
    · cases h
    · rename_i x hx
      cases ok with
      | true =>
        have hsends : sends a (.sendBroker true) =
            if x.closed = false then some (.worker, src, packet.payload) else none := by
          simp only [sends, hloop, hx, Option.any_some, Bool.not_eq_true']
        rw [hsends]
        split at h
        · rename_i hclosed
          cases h
          rw [if_neg (by simp [hclosed])]
          exact ⟨List.sublist_append_right _ _, rfl⟩
        · rename_i hopen
          cases h
          rw [if_pos (by simpa using hopen)]
          exact ⟨List.Sublist.refl _, rfl⟩
      | false =>
        split at h
        · cases h
          exact ⟨List.sublist_append_right _ _, rfl⟩
        · cases h
          exact ⟨List.sublist_append_right _ _, rfl⟩
  · cases h

theorem passesOn_step (h : ClientBinding.step routeDirect a e = some b) : PassesOn a e b := by
  cases e with
  | datagram src d => exact passesOn_datagram h
  | direct f => exact passesOn_direct h
  | sendBroker ok => exact passesOn_sendBroker h
  | stop | pickBroker | dialBroker ok =>
    simp only [ClientBinding.step] at h
    split at h
    · rename_i hloop
      unfold PassesOn
      rw [hloop]
      repeat' split at h
      all_goals cases h
      all_goals first
        | exact ⟨List.Sublist.refl _, rfl⟩
        | exact ⟨List.sublist_append_right _ _, rfl⟩
    · cases h
  | brokerCloses id | brokerForgets id | received r src payload | written r ok =>
    simp only [ClientBinding.step] at h
    repeat' split at h
    all_goals cases h
    all_goals exact ⟨List.Sublist.refl _, rfl⟩

/-! ## The payloads of the targets -/

variable {r r' : Reader} {src : UDPAddr} {payload reply : Bytes}

theorem sessions_step {f : Direct.Event} {x y : Direct.Association}
    (h : Direct.step routeDirect x f = some y) : x.sessions.length ≤ y.sessions.length := by
  cases f with
  | dial ok =>
    simp only [Direct.step] at h
    repeat' split at h
    all_goals cases h
    all_goals simp
  | send ok =>
    simp only [Direct.step] at h
    repeat' split at h
    all_goals cases h
    all_goals simp [Direct.close]
  | readerCloses id =>
    simp only [Direct.step] at h
    split at h <;> cases h
    simp [Direct.close]
  | datagram d | pick | readerForgets id =>
    simp only [Direct.step] at h
    repeat' split at h
    all_goals cases h
    all_goals exact Nat.le_refl _

theorem target_closeBroker {l : List BrokerSession} {id i : Nat} {x : BrokerSession}
    (hx : l[i]? = some x) : ∃ y, (closeBroker l id)[i]? = some y ∧ y.target = x.target := by
  unfold closeBroker
  rw [List.getElem?_modify, hx]
  by_cases hid : id = i
  · exact ⟨{ x with closed := true }, by simp [hid], rfl⟩
  · exact ⟨x, by simp [hid], rfl⟩

/-- A session keeps its target. -/
theorem target_step {i : Nat} {x : BrokerSession}
    (h : ClientBinding.step routeDirect a e = some b) (hx : a.broker[i]? = some x) :
    ∃ y, b.broker[i]? = some y ∧ y.target = x.target := by
  cases e with
  | dialBroker ok =>
    simp only [ClientBinding.step] at h
    repeat' split at h
    all_goals cases h
    all_goals refine ⟨x, ?_, rfl⟩
    · exact hx
    · obtain ⟨hi, rfl⟩ := List.getElem?_eq_some_iff.mp hx
      rw [List.getElem?_append_left hi]
      exact hx
    · exact hx
  | sendBroker ok =>
    simp only [ClientBinding.step] at h
    repeat' split at h
    all_goals cases h
    · exact ⟨x, hx, rfl⟩
    · exact ⟨x, hx, rfl⟩
    · exact target_closeBroker hx
  | brokerCloses id =>
    simp only [ClientBinding.step] at h
    split at h <;> cases h
    exact target_closeBroker hx
  | direct f =>
    obtain ⟨y, -, ⟨-, rfl⟩ | ⟨src, payload, -, rfl⟩⟩ := direct_cases h
    · exact ⟨x, hx, rfl⟩
    · exact ⟨x, hx, rfl⟩
  | datagram src d =>
    obtain ⟨-, ⟨-, rfl⟩ | ⟨packet, c, -, -, -, hcase⟩⟩ := datagram_step h
    · exact ⟨x, hx, rfl⟩
    · rcases hcase with ⟨-, rfl⟩ | ⟨-, ⟨y, rfl⟩ | ⟨route, rfl⟩⟩ <;> exact ⟨x, hx, rfl⟩
  | stop | pickBroker | brokerForgets id | received r src payload | written r ok =>
    simp only [ClientBinding.step] at h
    repeat' split at h
    all_goals cases h
    all_goals exact ⟨x, hx, rfl⟩

theorem relay_step (h : ClientBinding.step routeDirect a e = some b) :
    a.relay.sessions.length ≤ b.relay.sessions.length := by
  cases e with
  | datagram src d =>
    simp only [ClientBinding.step] at h
    repeat' split at h
    all_goals first | cases h; exact Nat.le_refl _ | skip
    · obtain ⟨y, hy, rfl⟩ := Option.map_eq_some_iff.mp h
      exact sessions_step hy
    · cases h
  | direct f =>
    obtain ⟨y, hy, ⟨-, rfl⟩ | ⟨src, payload, -, rfl⟩⟩ := direct_cases h
    · exact sessions_step hy
    · exact sessions_step hy
  | stop | pickBroker | dialBroker ok | sendBroker ok | brokerCloses id | brokerForgets id
  | received r src payload | written r ok =>
    simp only [ClientBinding.step] at h
    repeat' split at h
    all_goals cases h
    all_goals exact Nat.le_refl _

/-- What a session answers with does not change. -/
theorem response_step (h : ClientBinding.step routeDirect a e = some b)
    (hr : response a src payload r = some reply) : response b src payload r = some reply := by
  cases r with
  | direct id =>
    have hle := relay_step h
    simp only [response, Option.ite_none_right_eq_some] at hr ⊢
    exact ⟨Nat.lt_of_lt_of_le hr.1 hle, hr.2⟩
  | broker id =>
    obtain ⟨x, hx, hreply⟩ := Option.map_eq_some_iff.mp hr
    obtain ⟨y, hy, htarget⟩ := target_step h hx
    exact Option.map_eq_some_iff.mpr ⟨y, hy, by rw [htarget, hreply]⟩

theorem writing_none (h : s.association.pending r = none) : writing s r = none := by
  unfold writing
  rw [h]
  rfl

theorem writing_some {d : UDPAddr × Bytes} (h : s.association.pending r = some d) :
    writing s r = (bySession r s.received).head? := by
  unfold writing
  rw [h]
  rfl

theorem writing_congr (hp : t.association.pending r = s.association.pending r)
    (hr : bySession r t.received = bySession r s.received) : writing t r = writing s r := by
  unfold writing
  rw [hp, hr]

/-- Nothing is written to the client, and no reading goroutine gets or loses anything. -/
structure Silent (a b : ClientBinding.State) : Prop where
  pending : b.pending = a.pending
  replies : b.replies = a.replies

theorem silent_step (h : ClientBinding.step routeDirect a e = some b)
    (hreceived : ∀ r src payload, e ≠ .received r src payload) (hwritten : ∀ r ok, e ≠ .written r ok) :
    Silent a b := by
  cases e with
  | datagram src d =>
    obtain ⟨-, ⟨-, rfl⟩ | ⟨packet, c, -, -, -, hcase⟩⟩ := datagram_step h
    · exact ⟨rfl, rfl⟩
    · rcases hcase with ⟨-, rfl⟩ | ⟨-, ⟨y, rfl⟩ | ⟨route, rfl⟩⟩ <;> exact ⟨rfl, rfl⟩
  | direct f =>
    obtain ⟨y, -, ⟨-, rfl⟩ | ⟨src, payload, -, rfl⟩⟩ := direct_cases h
    · exact ⟨rfl, rfl⟩
    · exact ⟨rfl, rfl⟩
  | received r src payload => exact absurd rfl (hreceived r src payload)
  | written r ok => exact absurd rfl (hwritten r ok)
  | stop | pickBroker | dialBroker ok | sendBroker ok | brokerCloses id | brokerForgets id =>
    simp only [ClientBinding.step] at h
    repeat' split at h
    all_goals cases h
    all_goals exact ⟨rfl, rfl⟩

/-- The replies are those to what the reading goroutines have got, each to one payload. -/
structure Replying (s : State) : Prop where
  received : ∀ r,
    ((writing s r).toList ++ bySession r s.replied).Sublist (bySession r s.received)
  pending : ∀ r d, s.association.pending r = some d → ∃ x,
    (bySession r s.received).head? = some x ∧ response s.association x.1 x.2 r = some d.2
  replies : s.replied.map (fun x => response s.association x.2.1 x.2.2 x.1) =
    s.association.replies.map fun d => some d.2

theorem received_cases
    (h : ClientBinding.step routeDirect a (.received r src payload) = some b) :
    a.pending r = none ∧ b.replies = a.replies ∧ (b.pending = a.pending ∨ ∃ dst reply,
      response a src payload r = some reply ∧
        b.pending = Function.update a.pending r (some (dst, reply))) := by
  simp only [ClientBinding.step] at h
  split at h
  · rename_i reply hpending hreply
    refine ⟨hpending, ?_⟩
    split at h
    · cases h
      exact ⟨rfl, Or.inl rfl⟩
    · rename_i dst hdst
      split at h <;> cases h
      · exact ⟨rfl, Or.inl rfl⟩
      · exact ⟨rfl, Or.inr ⟨dst, reply, hreply, rfl⟩⟩
  · cases h

theorem written_cases {ok : Bool} (h : ClientBinding.step routeDirect a (.written r ok) = some b) :
    ∃ d, a.pending r = some d ∧ b.pending = Function.update a.pending r none ∧
      b.replies = if ok then d :: a.replies else a.replies := by
  simp only [ClientBinding.step] at h
  split at h
  · cases h
  · rename_i d hd
    cases h
    exact ⟨d, hd, rfl, rfl⟩

/-- What was answered is still the answer. -/
theorem Replying.replied (hs : Replying s) (h : ClientBinding.step routeDirect s.association e = some b) :
    s.replied.map (fun x => response b x.2.1 x.2.2 x.1) =
      s.association.replies.map fun d => some d.2 := by
  rw [← hs.replies]
  apply List.map_congr_left
  intro x hx
  have hmem : response s.association x.2.1 x.2.2 x.1 ∈
      s.association.replies.map fun d => some d.2 := by
    rw [← hs.replies]
    exact List.mem_map_of_mem hx
  obtain ⟨d, -, hd⟩ := List.mem_map.mp hmem
  rw [← hd, response_step h hd.symm]

theorem bySession_self (r : Reader) (x : UDPAddr × Bytes) (l : List (Reader × UDPAddr × Bytes)) :
    bySession r ((r, x) :: l) = x :: bySession r l := by
  unfold bySession
  rw [List.filter_cons_of_pos (by simp)]
  rfl

theorem bySession_of_ne (h : r' ≠ r) (x : UDPAddr × Bytes) (l : List (Reader × UDPAddr × Bytes)) :
    bySession r' ((r, x) :: l) = bySession r' l := by
  unfold bySession
  rw [List.filter_cons_of_neg (by simpa using Ne.symm h)]

theorem replying_received (hs : Replying s)
    (h : ClientBinding.step routeDirect s.association (.received r src payload) = some b) :
    Replying (s.next (.received r src payload) b) := by
  obtain ⟨hnone, hreplies, hpending⟩ := received_cases h
  have hself : bySession r (s.next (.received r src payload) b).received =
      (src, payload) :: bySession r s.received := bySession_self r (src, payload) s.received
  have hother : ∀ r', r' ≠ r → bySession r' (s.next (.received r src payload) b).received =
      bySession r' s.received := fun r' hr' => bySession_of_ne hr' (src, payload) s.received
  have hidle : (bySession r s.replied).Sublist (bySession r s.received) := by
    have hr := hs.received r
    rw [writing_none hnone] at hr
    exact hr
  have hpendingOther : ∀ r', r' ≠ r → b.pending r' = s.association.pending r' := by
    intro r' hr'
    rcases hpending with hpending | ⟨dst, reply, -, hpending⟩
    · rw [hpending]
    · rw [hpending, Function.update_of_ne hr']
  refine ⟨fun r' => ?_, fun r' d hd => ?_, ?_⟩
  · by_cases hr' : r' = r
    · rw [hr', hself]
      change ((writing _ r).toList ++ bySession r s.replied).Sublist _
      cases hb : b.pending r with
      | none =>
        rw [writing_none hb]
        exact hidle.cons _
      | some d =>
        rw [writing_some hb, hself]
        exact hidle.cons_cons _
    · rw [writing_congr (hpendingOther r' hr') (hother r' hr'), hother r' hr']
      exact hs.received r'
  · change b.pending r' = some d at hd
    by_cases hr' : r' = r
    · rw [hr'] at hd
      rw [hr', hself]
      refine ⟨_, rfl, ?_⟩
      rcases hpending with hpending | ⟨dst, reply, hreply, hpending⟩
      · rw [hpending, hnone] at hd
        cases hd
      · rw [hpending, Function.update_self] at hd
        cases hd
        exact response_step h hreply
    · rw [hpendingOther r' hr'] at hd
      obtain ⟨x, hx, hresponse⟩ := hs.pending r' d hd
      rw [hother r' hr']
      exact ⟨x, hx, response_step h hresponse⟩
  · change s.replied.map _ = b.replies.map _
    rw [hreplies]
    exact hs.replied h

theorem replying_written {ok : Bool} (hs : Replying s)
    (h : ClientBinding.step routeDirect s.association (.written r ok) = some b) :
    Replying (s.next (.written r ok) b) := by
  obtain ⟨d, hd, hpending, hreplies⟩ := written_cases h
  obtain ⟨x, hx, hresponse⟩ := hs.pending r d hd
  have hanswers : answers s (.written r ok) = if ok then some (r, x) else none := by
    cases ok with
    | true => simp only [answers, hx, Option.map_some, ↓reduceIte]
    | false => rfl
  have hreplied : (s.next (.written r ok) b).replied = (if ok then [(r, x)] else []) ++ s.replied := by
    change (answers s (.written r ok)).toList ++ s.replied = _
    rw [hanswers]
    cases ok <;> rfl
  have hold : (x :: bySession r s.replied).Sublist (bySession r s.received) := by
    have hr := hs.received r
    rw [writing_some hd, hx] at hr
    exact hr
  refine ⟨fun r' => ?_, fun r' d' hd' => ?_, ?_⟩
  · change (_ ++ bySession r' _).Sublist (bySession r' s.received)
    rw [hreplied]
    by_cases hr' : r' = r
    · have hidle : (s.next (.written r ok) b).association.pending r = none := by
        change b.pending r = none
        rw [hpending, Function.update_self]
      rw [hr', writing_none hidle]
      cases ok with
      | true =>
        rw [if_pos rfl, List.singleton_append, bySession_self]
        exact hold
      | false => exact (List.sublist_cons_self _ _).trans hold
    · have hsame : (s.next (.written r ok) b).association.pending r' = s.association.pending r' := by
        change b.pending r' = _
        rw [hpending, Function.update_of_ne hr']
      rw [writing_congr hsame rfl]
      cases ok with
      | true =>
        rw [if_pos rfl, List.singleton_append, bySession_of_ne hr']
        exact hs.received r'
      | false => exact hs.received r'
  · change b.pending r' = some d' at hd'
    rw [hpending] at hd'
    by_cases hr' : r' = r
    · rw [hr', Function.update_self] at hd'
      cases hd'
    · rw [Function.update_of_ne hr'] at hd'
      obtain ⟨y, hy, hyr⟩ := hs.pending r' d' hd'
      exact ⟨y, hy, response_step h hyr⟩
  · rw [hreplied]
    change _ = b.replies.map _
    rw [hreplies]
    cases ok with
    | true =>
      rw [if_pos rfl, if_pos rfl, List.singleton_append, List.map_cons, List.map_cons]
      exact congrArg₂ List.cons (response_step h hresponse) (hs.replied h)
    | false => exact hs.replied h

theorem replying_step (hs : Replying s) (h : ClientBinding.step routeDirect s.association e = some b) :
    Replying (s.next e b) := by
  by_cases hreceived : ∃ r src payload, e = .received r src payload
  · obtain ⟨r, src, payload, rfl⟩ := hreceived
    exact replying_received hs h
  · by_cases hwritten : ∃ r ok, e = .written r ok
    · obtain ⟨r, ok, rfl⟩ := hwritten
      exact replying_written hs h
    · have hsilent := silent_step h (fun r src payload he => hreceived ⟨r, src, payload, he⟩)
        fun r ok he => hwritten ⟨r, ok, he⟩
      have hgot : (s.next e b).received = s.received := by
        cases e with
        | received r src payload => exact absurd ⟨r, src, payload, rfl⟩ hreceived
        | _ => rfl
      have hreplied : (s.next e b).replied = s.replied := by
        cases e with
        | written r ok => exact absurd ⟨r, ok, rfl⟩ hwritten
        | _ => rfl
      refine ⟨fun r => ?_, fun r d hd => ?_, ?_⟩
      · have hpending : (s.next e b).association.pending r = s.association.pending r :=
          congrFun hsilent.pending r
        rw [writing_congr hpending (congrArg _ hgot), hgot, hreplied]
        exact hs.received r
      · change b.pending r = some d at hd
        rw [hsilent.pending] at hd
        obtain ⟨x, hx, hresponse⟩ := hs.pending r d hd
        rw [hgot]
        exact ⟨x, hx, response_step h hresponse⟩
      · rw [hreplied]
        change _ = b.replies.map _
        rw [hsilent.replies]
        exact hs.replied h

/-! ## Runs -/

/-- Nothing is altered, sent twice or overtaken: what was forwarded was accepted, in
this order, and the replies are those to payloads that a session got, in this order. -/
structure InOrder (s : State) : Prop where
  sent : s.sent.map Prod.snd = s.association.forwarded
  forwarded : s.association.forwarded.Sublist s.accepted
  replies : s.replied.map (fun x => response s.association x.2.1 x.2.2 x.1) =
    s.association.replies.map fun d => some d.2
  answered : ∀ r, (bySession r s.replied).Sublist (bySession r s.received)

theorem count_bySession (r : Reader) (x : UDPAddr × Bytes) (l : List (Reader × UDPAddr × Bytes)) :
    (bySession r l).count x = l.count (r, x) := by
  induction l with
  | nil => rfl
  | cons y l ih =>
    obtain ⟨r', y⟩ := y
    by_cases hr : r' = r
    · rw [hr, bySession_self, List.count_cons, List.count_cons, ih]
      simp
    · rw [bySession_of_ne (Ne.symm hr), ih, List.count_cons_of_ne]
      exact fun h => hr (congrArg Prod.fst h)

/-- Over all sessions, no more was written than was got. -/
theorem replied_subperm (hs : InOrder s) : s.replied.Subperm s.received := by
  rw [List.subperm_ext_iff]
  intro x hx
  rw [← count_bySession, ← count_bySession]
  exact (hs.answered x.1).count_le x.2

structure Kept (s : State) : Prop where
  sent : s.sent.map Prod.snd = s.association.forwarded
  accepted : ((inHand s.association.loop).toList ++ s.association.forwarded).Sublist s.accepted
  replying : Replying s

theorem kept_start : Kept start := by
  refine ⟨rfl, List.Sublist.refl _, fun r => List.Sublist.refl _, fun r d h => ?_, rfl⟩
  cases h

theorem kept_step (hs : Kept s) (h : step routeDirect s e = some t) : Kept t := by
  obtain ⟨b, hb, rfl⟩ := Option.map_eq_some_iff.mp h
  obtain ⟨hpasses, hforwarded⟩ := passesOn_step hb
  refine ⟨?_, hpasses.trans (hs.accepted.append_left _), replying_step hs.replying hb⟩
  change ((sends s.association e).toList ++ s.sent).map Prod.snd = b.forwarded
  rw [List.map_append, hs.sent, hforwarded]

theorem Kept.inOrder (hs : Kept s) : InOrder s :=
  ⟨hs.sent, (List.sublist_append_right _ _).trans hs.accepted, hs.replying.replies,
    fun r => (List.sublist_append_right _ _).trans (hs.replying.received r)⟩

/-- A run of the association is one of the record beside it. -/
theorem run_recorded {es : List Event}
    (hr : run (ClientBinding.step routeDirect) s.association es = some b) :
    ∃ t, run (step routeDirect) s es = some t ∧ t.association = b := by
  induction es generalizing s with
  | nil =>
    cases hr
    exact ⟨s, rfl, rfl⟩
  | cons e es ih =>
    obtain ⟨m, hm, hr⟩ := run_cons_some hr
    obtain ⟨t, ht, hb⟩ := @ih (s.next e m) hr
    refine ⟨t, ?_, hb⟩
    rw [run_cons]
    unfold step
    rw [hm]
    exact ht

/-- Whatever the loop and the reading goroutines do, datagrams may be dropped between
the client and the targets, but what comes through is as it was sent, once and in order. -/
theorem delivers_in_order (es : List Event)
    (hr : run (ClientBinding.step routeDirect) ClientBinding.start es = some a) :
    ∃ s, run (step routeDirect) start es = some s ∧ s.association = a ∧ InOrder s := by
  obtain ⟨s, hs, ha⟩ := @run_recorded routeDirect a start es hr
  have hkept := run_preserves (fun s e t hs h => @kept_step routeDirect s t e hs h) kept_start hs
  exact ⟨s, hs, ha, hkept.inOrder⟩

def client : UDPAddr := ⟨.v4 0x0A000007, 4444, [], by decide, rfl⟩

def server : UDPAddr := ⟨.v4 0x01010101, 53, [], by decide, rfl⟩

/-- The client sends `p` to the server. -/
def asks (p : UInt8) : Event :=
  .datagram client ⟨[0, 0, 0, 1, 1, 1, 1, 1, 0, 53, p], fun _ => none, none⟩

/-- The first datagram is dropped, the second one comes through and is answered. -/
def oneAnswer : List Event :=
  [asks 0x78, .direct .pick, .direct (.dial false), .direct .pick, asks 0x79, .direct .pick,
    .direct (.dial true), .direct (.send true), .received (.direct 0) server [0x7A],
    .written (.direct 0) true]

theorem delivers_in_order_oneAnswer : ∃ a s,
    run (ClientBinding.step (HTTPConnect.ascii "direct")) ClientBinding.start oneAnswer = some a ∧
      a.forwarded = [(client, [0x79])] ∧ s.association = a ∧ InOrder s := by
  have hrun : (run (ClientBinding.step (HTTPConnect.ascii "direct")) ClientBinding.start oneAnswer).map
      (fun a => a.forwarded) = some [(client, [0x79])] := by decide +kernel
  obtain ⟨a, ha, hforwarded⟩ := Option.map_eq_some_iff.mp hrun
  obtain ⟨s, -, hs, hin⟩ := delivers_in_order oneAnswer ha
  exact ⟨a, s, ha, hforwarded, hs, hin⟩

end SplitProxy.UDPDelivery
