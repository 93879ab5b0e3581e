import SplitProxy.Tunnels

/-!
# The proxies' part of the tunnels

What the links of the proxies carry, session by session: the messages a link was
given are the request of each of its sessions, once, and the packets of that
session in order; a session has loaded the data that came for it, until it is
lost from the map.
-/
namespace SplitProxy.Tunnels

open Runs SessionTable
open TableStreams (Message framesOf dataFor framesOf_append dataFor_append dataFor_mono)

variable {P W Id : Type} [DecidableEq P] [DecidableEq W] [DecidableEq Id]

/-! ## One session -/

section Session

variable {x y : ProxySession.Session} {e : ProxySession.Event}

theorem client_emitted (h : ProxySession.step x e = some y) :
    y.emitted = x.emitted ++ (clientPacket x e).toList := by
  cases ProxySession.step_move h with
  | clientSent hc => simp [clientPacket, hc]
  | @closeSent ok => cases ok <;> simp [clientPacket]
  | _ => simp [clientPacket]

theorem client_received (h : ProxySession.step x e = some y) (he : ∀ cmd p, e ≠ .frame cmd p) :
    y.received = x.received := by
  cases ProxySession.step_move h with
  | frame => exact absurd rfl (he _ _)
  | _ => simp

/-- A session that has left the map does not come back. -/
theorem client_registered (h : ProxySession.step x e = some y) (hy : y.registered = true) :
    x.registered = true := by
  cases ProxySession.step_move h with
  | _ => simp_all

/-- Before the request nothing is sent, and the request once. -/
theorem client_sendRequest (h : ProxySession.step x e = some y) (hy : y.handler = .sendRequest) :
    x.handler = .sendRequest ∧ e ≠ .requestSent := by
  cases ProxySession.step_move h with
  | closeChecked hp =>
    simp only at hy
    split at hy <;> cases hy
  | _ => simp_all

theorem requestSent_some (h : ProxySession.step x .requestSent = some y) :
    x.handler = .sendRequest ∧ y = { x with handler := .waitConnected } := by
  cases ProxySession.step_move h with
  | requestSent hp => exact ⟨hp, rfl⟩

/-- `readLoop` takes up a frame of the session only by reading one. -/
theorem client_loop (h : ProxySession.step x e = some y) (he : ∀ cmd p, e ≠ .frame cmd p)
    (hy : y.loop ≠ .idle) : x.loop ≠ .idle := by
  cases ProxySession.step_move h with
  | frame => exact absurd rfl (he _ _)
  | _ => simp_all

theorem client_skipped {cmd : Command} {p : Payload}
    (h : ProxySession.step x (.frame cmd p) = none) (hx : x.loop = .idle) :
    x.registered = false := by
  simp only [ProxySession.step] at h
  split at h
  · cases h
  · rename_i hc
    by_contra hr
    exact hc ⟨by simpa using hr, hx⟩

end Session

/-! ## What the links are given -/

/-- The requests for one id. -/
def requestsOf (id : Id) (ms : List (Message Id)) : List (Message Id) :=
  ms.filter fun
    | .request req => req.id = id
    | .frame _ => false

theorem requestsOf_append (id : Id) (ms ns : List (Message Id)) :
    requestsOf id (ms ++ ns) = requestsOf id ms ++ requestsOf id ns := List.filter_append ..

theorem requestsOf_frame (id : Id) (f : Frame Id) : requestsOf id [.frame f] = [] := rfl

theorem mem_requestsOf {req : BrokerRequest Id} {ms : List (Message Id)} :
    .request req ∈ requestsOf req.id ms ↔ .request req ∈ ms := by
  simp [requestsOf]

/-- The messages of every session on its link, `sent` being what each link was given. -/
structure Sent (udp : Id → Bool) (opened : Id → Option (P × BrokerRequest Id))
    (client : Id → ProxySession.Session) (sent : P → List (Message Id)) : Prop where
  named : ∀ id p req, opened id = some (p, req) → req.id = id ∧ (udp id = false → req.mode = .tcp)
  packets : ∀ id p req, udp id = false → opened id = some (p, req) →
    packetsOf id (framesOf (sent p)) = (client id).emitted
  foreign : ∀ id p, udp id = false → (∀ req, opened id ≠ some (p, req)) →
    packetsOf id (framesOf (sent p)) = []
  requested : ∀ p req, .request req ∈ sent p → opened req.id = some (p, req) ∧
    (udp req.id = false → (client req.id).handler ≠ .sendRequest)
  once : ∀ p id, (requestsOf id (sent p)).length ≤ 1

section Sent

variable {udp : Id → Bool} {opened : Id → Option (P × BrokerRequest Id)}
  {client : Id → ProxySession.Session} {sent sent' : P → List (Message Id)} {p : P} {id : Id}
  {req : BrokerRequest Id}

section

omit [DecidableEq P]

theorem sent_initial (udp : Id → Bool) (client : Id → ProxySession.Session) :
    Sent (P := P) udp (fun _ => none) client fun _ => [] :=
  ⟨nofun, nofun, fun _ _ _ _ => rfl, nofun, fun _ _ => Nat.zero_le 1⟩

/-- A link never takes a second request for an id. -/
theorem Sent.distinct (hs : Sent udp opened client sent) {ms : List (Message Id)}
    (h : ms ++ [.request req] <+: sent p) {r : BrokerRequest Id} (hr : .request r ∈ ms) :
    r.id ≠ req.id := by
  intro hid
  obtain ⟨rest, hrest⟩ := h
  have hlen := hs.once p req.id
  rw [← hrest, requestsOf_append, requestsOf_append, List.length_append, List.length_append] at hlen
  have hone : 0 < (requestsOf req.id ms).length := by
    rw [← hid]
    exact List.length_pos_of_mem (mem_requestsOf.mpr hr)
  have htwo : 0 < (requestsOf req.id [Message.request req]).length :=
    List.length_pos_of_mem (mem_requestsOf.mpr (List.mem_singleton_self _))
  omega

/-- `openSession` has stored a session, nothing is sent yet. -/
theorem Sent.opens (hs : Sent udp opened client sent) (hnone : opened req.id = none)
    (hfresh : (client req.id).emitted = []) (hmode : req.mode = .tcp) :
    Sent udp (Function.update opened req.id (some (p, req))) client sent := by
  have hne : ∀ {id : Id} {q : P} {r : BrokerRequest Id}, opened id = some (q, r) → id ≠ req.id := by
    rintro id q r h rfl
    rw [hnone] at h
    cases h
  refine ⟨fun id q r h => ?_, fun id q r hid h => ?_, fun id q hid h => ?_, fun q r h => ?_, hs.once⟩
  · by_cases hi : id = req.id
    · rw [hi, Function.update_self] at h
      cases h
      exact ⟨hi.symm, fun _ => hmode⟩
    · rw [Function.update_of_ne hi] at h
      exact hs.named id q r h
  · by_cases hi : id = req.id
    · rw [hi, hfresh]
      refine hs.foreign req.id q (by rw [← hi]; exact hid) fun r => ?_
      rw [hnone]
      nofun
    · rw [Function.update_of_ne hi] at h
      exact hs.packets id q r hid h
  · refine hs.foreign id q hid fun r hr => h r ?_
    rw [Function.update_of_ne (hne hr), hr]
  · obtain ⟨ho, hh⟩ := hs.requested q r h
    rw [Function.update_of_ne (hne ho)]
    exact ⟨ho, hh⟩

end

/-- The first request of a UDP session. -/
theorem Sent.openUDP (hs : Sent udp opened client sent) (hnone : opened req.id = none)
    (hudp : udp req.id = true)
    (hsent : ∀ q, sent' q = sent q ++ if q = p then [.request req] else []) :
    Sent udp (Function.update opened req.id (some (p, req))) client sent' := by
  have hne : ∀ {id : Id} {q : P} {r : BrokerRequest Id}, opened id = some (q, r) → id ≠ req.id := by
    rintro id q r h rfl
    rw [hnone] at h
    cases h
  have hours : ∀ {id : Id}, udp id = false → id ≠ req.id := by
    rintro id h rfl
    rw [hudp] at h
    cases h
  have hframes : ∀ q, framesOf (sent' q) = framesOf (sent q) := by
    intro q
    rw [hsent, framesOf_append]
    split <;> exact List.append_nil _
  refine ⟨fun id q r h => ?_, fun id q r hid h => ?_, fun id q hid h => ?_, fun q r h => ?_,
    fun q id => ?_⟩
  · by_cases hi : id = req.id
    · rw [hi, Function.update_self] at h
      cases h
      exact ⟨hi.symm, fun hid => absurd hi (hours hid)⟩
    · rw [Function.update_of_ne hi] at h
      exact hs.named id q r h
  · rw [Function.update_of_ne (hours hid)] at h
    rw [hframes]
    exact hs.packets id q r hid h
  · rw [hframes]
    refine hs.foreign id q hid fun r hr => h r ?_
    rw [Function.update_of_ne (hne hr), hr]
  · rw [hsent] at h
    rcases List.mem_append.mp h with h | h
    · obtain ⟨ho, hh⟩ := hs.requested q r h
      rw [Function.update_of_ne (hne ho)]
      exact ⟨ho, hh⟩
    · split at h
      · rename_i hq
        cases List.mem_singleton.mp h
        refine ⟨by rw [Function.update_self, hq], fun hid => absurd rfl (hours hid)⟩
      · cases h
  · rw [hsent]
    split
    · rw [requestsOf_append, List.length_append]
      by_cases hid : req.id = id
      · have hnil : requestsOf id (sent q) = [] := by
          refine List.filter_eq_nil_iff.mpr fun m hm => ?_
          cases m with
          | frame f => nofun
          | request r =>
            have := hne (hs.requested q r hm).1
            simpa [← hid] using this
        rw [hnil]
        simp [requestsOf, hid]
      · simpa [requestsOf, hid] using hs.once q id
    · rw [List.append_nil]
      exact hs.once q id

/-- A message of a UDP session. -/
theorem Sent.udpMessage {f : Frame Id} (hs : Sent udp opened client sent) (hudp : udp f.id = true)
    (hsent : ∀ q, sent' q = sent q ++ if q = p then [.frame f] else []) :
    Sent udp opened client sent' := by
  have hframes : ∀ id q, udp id = false → packetsOf id (framesOf (sent' q)) =
      packetsOf id (framesOf (sent q)) := by
    intro id q hid
    have hne : f.id ≠ id := by
      rintro rfl
      rw [hudp] at hid
      cases hid
    rw [hsent, framesOf_append, packetsOf_append]
    split
    · rw [show framesOf [Message.frame f] = [f] from rfl, packetsOf_single_other hne, List.append_nil]
    · exact List.append_nil _
  refine ⟨hs.named, fun id q r hid h => ?_, fun id q hid h => ?_, fun q r h => ?_, fun q id => ?_⟩
  · rw [hframes id q hid]
    exact hs.packets id q r hid h
  · rw [hframes id q hid]
    exact hs.foreign id q hid h
  · rw [hsent] at h
    rcases List.mem_append.mp h with h | h
    · exact hs.requested q r h
    · split at h
      · cases List.mem_singleton.mp h
      · cases h
  · rw [hsent, requestsOf_append]
    split
    · rw [requestsOf_frame, List.append_nil]
      exact hs.once q id
    · rw [show requestsOf id ([] : List (Message Id)) = [] from rfl, List.append_nil]
      exact hs.once q id

/-- The packets in what a session gives to `c.send`. -/
theorem packetsOf_clientMessage (req : BrokerRequest Id) (x : ProxySession.Session)
    (e : ProxySession.Event) (id : Id) :
    packetsOf id (framesOf (clientMessage req x e).toList) =
      if req.id = id then (clientPacket x e).toList else [] := by
  unfold clientMessage
  by_cases he : e = .requestSent
  · subst he
    simp [framesOf, clientPacket]
  · rw [if_neg he]
    cases clientPacket x e with
    | none => exact (ite_self _).symm
    | some p =>
      show packetsOf id [⟨req.id, p.1, p.2⟩] = _
      by_cases hid : req.id = id
      · rw [if_pos hid, ← hid, packetsOf_single_self]
        rfl
      · rw [if_neg hid, packetsOf_single_other hid]

omit [DecidableEq Id] in
theorem mem_clientMessage {r : BrokerRequest Id} {x : ProxySession.Session}
    {e : ProxySession.Event} (h : Message.request r ∈ (clientMessage req x e).toList) :
    e = .requestSent ∧ r = req := by
  unfold clientMessage at h
  split at h
  · cases List.mem_singleton.mp h
    exact ⟨‹_›, rfl⟩
  · cases hp : clientPacket x e with
    | none =>
      rw [hp] at h
      cases h
    | some p =>
      rw [hp] at h
      cases List.mem_singleton.mp h

/-- A session moves, and its link is given what it sends. -/
theorem Sent.moved {e : ProxySession.Event} {y : ProxySession.Session}
    (hs : Sent udp opened client sent) (hid : udp id = false) (ho : opened id = some (p, req))
    (h : ProxySession.step (client id) e = some y)
    (hsent : ∀ q, sent' q = sent q ++ if q = p then (clientMessage req (client id) e).toList else []) :
    Sent udp opened (Function.update client id y) sent' := by
  obtain ⟨hreq, -⟩ := hs.named id p req ho
  have hframes : ∀ i q, packetsOf i (framesOf (sent' q)) = packetsOf i (framesOf (sent q)) ++
      if q = p ∧ i = id then (clientPacket (client id) e).toList else [] := by
    intro i q
    rw [hsent, framesOf_append, packetsOf_append]
    by_cases hq : q = p
    · rw [if_pos hq, packetsOf_clientMessage, hreq]
      by_cases hi : i = id
      · rw [if_pos hi.symm, if_pos ⟨hq, hi⟩]
      · rw [if_neg (Ne.symm hi), if_neg fun hc => hi hc.2]
    · rw [if_neg hq, if_neg fun hc => hq hc.1]
      rfl
  refine ⟨hs.named, fun i q r hi hr => ?_, fun i q hi hr => ?_, fun q r hr => ?_, fun q i => ?_⟩
  · rw [hframes, hs.packets i q r hi hr]
    by_cases hii : i = id
    · subst hii
      rw [ho] at hr
      cases hr
      rw [if_pos ⟨rfl, rfl⟩, Function.update_self, client_emitted h]
    · rw [if_neg fun hc => hii hc.2, List.append_nil, Function.update_of_ne hii]
  · rw [hframes, hs.foreign i q hi hr, if_neg, List.nil_append]
    rintro ⟨rfl, rfl⟩
    exact hr req ho
  · rw [hsent] at hr
    rcases List.mem_append.mp hr with hr | hr
    · obtain ⟨hopen, hh⟩ := hs.requested q r hr
      refine ⟨hopen, fun hu => ?_⟩
      by_cases hi : r.id = id
      · rw [hi, Function.update_self]
        intro hy
        rw [hi] at hh
        exact hh hid (client_sendRequest h hy).1
      · rw [Function.update_of_ne hi]
        exact hh hu
    · split at hr
      · rename_i hq
        obtain ⟨rfl, rfl⟩ := mem_clientMessage hr
        rw [hreq, hq, Function.update_self, (requestSent_some h).2]
        exact ⟨ho, fun _ => nofun⟩
      · cases hr
  · rw [hsent, requestsOf_append]
    by_cases hq : q = p
    · rw [if_pos hq]
      by_cases he : e = .requestSent
      · subst he
        by_cases hi : i = id
        · have hnil : requestsOf i (sent q) = [] := by
            refine List.filter_eq_nil_iff.mpr fun m hm => ?_
            cases m with
            | frame f => nofun
            | request r =>
              have hne : r.id ≠ i := by
                rintro rfl
                have hh := (hs.requested q r hm).2
                rw [hi] at hh
                exact hh hid (requestSent_some h).1
              simpa using hne
          rw [hnil, List.nil_append]
          exact List.length_filter_le ..
        · have hne : req.id ≠ i := by rw [hreq]; exact Ne.symm hi
          simpa [clientMessage, requestsOf, hne] using hs.once q i
      · have hnil : requestsOf i (clientMessage req (client id) e).toList = [] := by
          unfold clientMessage
          rw [if_neg he]
          cases clientPacket (client id) e <;> rfl
        rw [hnil, List.append_nil]
        exact hs.once q i
    · rw [if_neg hq, show requestsOf i ([] : List (Message Id)) = [] from rfl, List.append_nil]
      exact hs.once q i

end Sent

/-! ## What the sessions have loaded -/

/-- The data of a session as `readLoop` has loaded it, `taken` being what it has read. -/
structure Loaded (udp : Id → Bool) (opened : Id → Option (P × BrokerRequest Id))
    (client : Id → ProxySession.Session) (taken : P → List (Frame Id)) : Prop where
  data : ∀ id p req, udp id = false → opened id = some (p, req) →
    dataOf (client id).received <+: dataFor id (taken p)
  kept : ∀ id p req, udp id = false → opened id = some (p, req) →
    (client id).registered = true → dataOf (client id).received = dataFor id (taken p)
  mem : ∀ id p req, opened id = some (p, req) → ∀ k ∈ (client id).received,
    ⟨id, k.1, k.2⟩ ∈ taken p

section Loaded

variable {udp : Id → Bool} {opened : Id → Option (P × BrokerRequest Id)}
  {client : Id → ProxySession.Session} {taken taken' : P → List (Frame Id)} {p : P} {id : Id}
  {req : BrokerRequest Id}

section

omit [DecidableEq P]

theorem loaded_initial (udp : Id → Bool) (client : Id → ProxySession.Session) :
    Loaded (P := P) udp (fun _ => none) client fun _ => [] := ⟨nofun, nofun, nofun⟩

theorem Loaded.opens (hs : Loaded udp opened client taken) (hfresh : (client req.id).received = [])
    (hdata : udp req.id = false → dataFor req.id (taken p) = []) :
    Loaded udp (Function.update opened req.id (some (p, req))) client taken := by
  refine ⟨fun id q r hid h => ?_, fun id q r hid h hr => ?_, fun id q r h k hk => ?_⟩
  · by_cases hi : id = req.id
    · rw [hi, hfresh]
      exact List.nil_prefix
    · rw [Function.update_of_ne hi] at h
      exact hs.data id q r hid h
  · by_cases hi : id = req.id
    · subst hi
      rw [Function.update_self] at h
      cases h
      rw [hfresh, hdata hid]
      rfl
    · rw [Function.update_of_ne hi] at h
      exact hs.kept id q r hid h hr
  · by_cases hi : id = req.id
    · rw [hi, hfresh] at hk
      cases hk
    · rw [Function.update_of_ne hi] at h
      exact hs.mem id q r h k hk

theorem Loaded.moved {e : ProxySession.Event} {y : ProxySession.Session}
    (hs : Loaded udp opened client taken) (he : ∀ cmd p, e ≠ .frame cmd p)
    (h : ProxySession.step (client id) e = some y) :
    Loaded udp opened (Function.update client id y) taken := by
  have hrec : ∀ i, (Function.update client id y i).received = (client i).received := by
    intro i
    by_cases hi : i = id
    · rw [hi, Function.update_self, client_received h he]
    · rw [Function.update_of_ne hi]
  have hreg : ∀ i, (Function.update client id y i).registered = true →
      (client i).registered = true := by
    intro i hr
    by_cases hi : i = id
    · rw [hi, Function.update_self] at hr
      rw [hi]
      exact client_registered h hr
    · rw [Function.update_of_ne hi] at hr
      exact hr
  refine ⟨fun i q r hid ho => ?_, fun i q r hid ho hr => ?_, fun i q r ho k hk => ?_⟩
  · rw [hrec]
    exact hs.data i q r hid ho
  · rw [hrec]
    exact hs.kept i q r hid ho (hreg i hr)
  · rw [hrec] at hk
    exact hs.mem i q r ho k hk

end

/-- `readLoop` reads a frame that none of its sessions loads. -/
theorem Loaded.skip {f : Frame Id} (hs : Loaded udp opened client taken)
    (hskip : ∀ req, udp f.id = false → opened f.id = some (p, req) →
      (client f.id).registered = false)
    (ht : ∀ q, taken' q = taken q ++ if q = p then [f] else []) :
    Loaded udp opened client taken' := by
  have hle : ∀ q, taken q <+: taken' q := fun q => ⟨_, (ht q).symm⟩
  refine ⟨fun id q r hid h => ?_, fun id q r hid h hr => ?_, fun id q r h k hk => ?_⟩
  · exact (hs.data id q r hid h).trans (dataFor_mono id (hle q))
  · rw [hs.kept id q r hid h hr, ht, dataFor_append]
    split
    · rename_i hq
      subst hq
      by_cases hi : f.id = id
      · subst hi
        rw [hskip r hid h] at hr
        cases hr
      · rw [TableStreams.dataFor_other hi, List.append_nil]
    · exact (List.append_nil _).symm
  · exact (hle q).subset (hs.mem id q r h k hk)

/-- `readLoop` loads the session for a frame. -/
theorem Loaded.take {f : Frame Id} {y : ProxySession.Session}
    (hs : Loaded udp opened client taken) (ho : opened f.id = some (p, req))
    (h : ProxySession.step (client f.id) (.frame f.cmd f.payload) = some y)
    (ht : ∀ q, taken' q = taken q ++ if q = p then [f] else []) :
    Loaded udp opened (Function.update client f.id y) taken' := by
  obtain ⟨hreg, -, rfl⟩ := ProxySession.frame_some h
  have hle : ∀ q, taken q <+: taken' q := fun q => ⟨_, (ht q).symm⟩
  have hsame : udp f.id = false →
      dataOf ((client f.id).received ++ [(f.cmd, f.payload)]) = dataFor f.id (taken' p) := by
    intro hid
    rw [ht, if_pos rfl, dataFor_append, dataOf_append, hs.kept f.id p req hid ho hreg]
    exact congrArg _ (TableStreams.dataFor_self f.id f.cmd f.payload).symm
  refine ⟨fun id q r hid hr => ?_, fun id q r hid hr hreg => ?_, fun id q r hr k hk => ?_⟩
  · by_cases hi : id = f.id
    · subst hi
      rw [ho] at hr
      cases hr
      rw [Function.update_self]
      exact (hsame hid) ▸ List.prefix_rfl
    · rw [Function.update_of_ne hi]
      exact (hs.data id q r hid hr).trans (dataFor_mono id (hle q))
  · by_cases hi : id = f.id
    · subst hi
      rw [ho] at hr
      cases hr
      rw [Function.update_self]
      exact hsame hid
    · rw [Function.update_of_ne hi] at hreg ⊢
      rw [hs.kept id q r hid hr hreg, ht, dataFor_append]
      split
      · rw [TableStreams.dataFor_other (Ne.symm hi), List.append_nil]
      · exact (List.append_nil _).symm
  · by_cases hi : id = f.id
    · subst hi
      rw [ho] at hr
      cases hr
      rw [Function.update_self] at hk
      rcases List.mem_append.mp hk with hk | hk
      · exact (hle p).subset (hs.mem f.id p req ho k hk)
      · cases List.mem_singleton.mp hk
        rw [ht, if_pos rfl]
        exact List.mem_append_right _ (List.mem_singleton_self _)
    · rw [Function.update_of_ne hi] at hk
      exact (hle q).subset (hs.mem id q r hr k hk)

end Loaded

/-! ## All proxies -/

/-- Everything that holds of the proxies' part, whatever the links deliver. -/
structure ProxySide (udp : Id → Bool) (s : State P W Id) : Prop where
  sent : Sent udp s.opened s.client fun p => (s.proxy p).writeCh.sent
  loaded : Loaded udp s.opened s.client fun p => (s.down p).taken
  carry : ∀ p, Carries (fun m => m) (s.proxy p).writeCh (s.up p) (s.proxy p).writing
  inv : ∀ id, ProxySession.Inv (s.client id)
  fresh : ∀ id, s.opened id = none → s.client id = ProxySession.stored
  busy : ∀ id p req, s.opened id = some (p, req) → (s.client id).loop ≠ .idle →
    (s.proxy p).current = some id

section ProxySide

variable {udp : Id → Bool} {s t : State P W Id} {p : P} {id : Id} {e : Event P W Id}

omit [DecidableEq W] [DecidableEq P] in
theorem proxySide_initial (udp : Id → Bool) : ProxySide udp (initial P W Id) where
  sent := sent_initial udp _
  loaded := loaded_initial udp _
  carry := fun _ => carries_empty _ _
  inv := fun _ => ProxySession.inv_stored
  fresh := fun _ _ => rfl
  busy := nofun

/-- What the links of the proxies look like after a step that leaves them alone. -/
structure SameProxies (s t : State P W Id) : Prop where
  opened : t.opened = s.opened
  client : t.client = s.client
  proxy : t.proxy = s.proxy
  up : ∀ p, (t.up p).sent = (s.up p).sent
  down : ∀ p, (t.down p).taken = (s.down p).taken

omit [DecidableEq P] [DecidableEq W] in
theorem ProxySide.keep (hs : ProxySide udp s) (h : SameProxies s t) : ProxySide udp t where
  sent := by
    rw [h.opened, h.client, h.proxy]
    exact hs.sent
  loaded := by
    rw [h.opened, h.client, funext h.down]
    exact hs.loaded
  carry := fun p => by
    rw [h.proxy]
    exact (hs.carry p).congr rfl (h.up p)
  inv := by
    rw [h.client]
    exact hs.inv
  fresh := by
    rw [h.opened, h.client]
    exact hs.fresh
  busy := by
    rw [h.opened, h.client, h.proxy]
    exact hs.busy

/-- The channel of one link is given at most one message more. -/
structure ProxyGiven (s t : State P W Id) (p : P) (o : Option (Message Id)) : Prop where
  rest : t = { s with proxy := t.proxy }
  sent : ∀ q, (t.proxy q).writeCh.sent =
    (s.proxy q).writeCh.sent ++ if q = p then o.toList else []
  taken : ∀ q, (t.proxy q).writeCh.taken = (s.proxy q).writeCh.taken
  writing : ∀ q, (t.proxy q).writing = (s.proxy q).writing
  current : ∀ q, (t.proxy q).current = (s.proxy q).current

omit [DecidableEq W] [DecidableEq Id] in
theorem proxySend_some {o : Option (Message Id)} (h : s.proxySend p o = some t) :
    ProxyGiven s t p o := by
  cases o with
  | none =>
    cases h
    refine ⟨rfl, fun q => ?_, fun _ => rfl, fun _ => rfl, fun _ => rfl⟩
    rw [Option.toList_none, ite_self, List.append_nil]
  | some m =>
    simp only [State.proxySend] at h
    split at h <;> cases h
    refine ⟨rfl, fun q => ?_, fun q => ?_, fun q => ?_, fun q => ?_⟩
    all_goals
      by_cases hq : q = p
      · subst hq
        simp [State.setProxy]
      · simp [State.setProxy, hq]

omit [DecidableEq W] [DecidableEq Id] in
theorem ProxyGiven.carry {o : Option (Message Id)} (h : ProxyGiven s t p o)
    (hs : ∀ q, Carries (fun m => m) (s.proxy q).writeCh (s.up q) (s.proxy q).writing) (q : P) :
    Carries (fun m => m) (t.proxy q).writeCh (t.up q) (t.proxy q).writing := by
  rw [h.writing, show t.up = s.up by rw [h.rest]]
  exact (hs q).congr (h.taken q) rfl

theorem proxySide_openSession {req : BrokerRequest Id} (hs : ProxySide udp s)
    (hnew : s.opened req.id = none → udp req.id = false → dataFor req.id (s.down p).taken = [])
    (h : step udp s (.openSession p req) = some t) : ProxySide udp t := by
  simp only [step] at h
  split at h
  · rename_i hc
    obtain ⟨hnone, hid, hmode⟩ := hc
    cases h
    have hst := hs.fresh req.id hnone
    refine ⟨hs.sent.opens hnone (by rw [hst]; rfl) hmode, hs.loaded.opens (by rw [hst]; rfl) (hnew hnone),
      hs.carry, hs.inv, fun id h => ?_, fun id q r h hl => ?_⟩
    · by_cases hi : id = req.id
      · rw [show (_ : State P W Id).opened id = some (p, req) by
          rw [hi]; exact Function.update_self ..] at h
        cases h
      · exact hs.fresh id (by rw [← h]; exact (Function.update_of_ne hi ..).symm)
    · by_cases hi : id = req.id
      · rw [hi, hst] at hl
        exact absurd rfl hl
      · exact hs.busy id q r (by rw [← h]; exact (Function.update_of_ne hi ..).symm) hl
  · cases h

theorem proxySide_openUDP {req : BrokerRequest Id} (hs : ProxySide udp s)
    (h : step udp s (.openUDP p req) = some t) : ProxySide udp t := by
  simp only [step] at h
  split at h
  · rename_i hc
    obtain ⟨hnone, hid, hmode⟩ := hc
    have hg := proxySend_some h
    have hopened : t.opened = Function.update s.opened req.id (some (p, req)) := by rw [hg.rest]
    have hclient : t.client = s.client := by rw [hg.rest]
    have hdown : t.down = s.down := by rw [hg.rest]
    have hst := hs.fresh req.id hnone
    refine ⟨?_, ?_, hg.carry hs.carry, ?_, fun id h => ?_, fun id q r h hl => ?_⟩
    · rw [hopened, hclient]
      exact hs.sent.openUDP hnone hid hg.sent
    · rw [hopened, hclient, hdown]
      refine hs.loaded.opens (by rw [hst]; rfl) fun hu => ?_
      rw [hid] at hu
      cases hu
    · rw [hclient]
      exact hs.inv
    · rw [hclient]
      by_cases hi : id = req.id
      · rw [hopened, hi, Function.update_self] at h
        cases h
      · rw [hopened, Function.update_of_ne hi] at h
        exact hs.fresh id h
    · rw [hclient] at hl
      by_cases hi : id = req.id
      · rw [hi, hst] at hl
        exact absurd rfl hl
      · rw [hopened, Function.update_of_ne hi] at h
        rw [hg.current]
        exact hs.busy id q r h hl
  · cases h

theorem proxySide_udpMessage {f : Frame Id} (hs : ProxySide udp s)
    (h : step udp s (.udpMessage p f) = some t) : ProxySide udp t := by
  simp only [step] at h
  split at h
  · rename_i hid
    have hg := proxySend_some h
    have hopened : t.opened = s.opened := by rw [hg.rest]
    have hclient : t.client = s.client := by rw [hg.rest]
    have hdown : t.down = s.down := by rw [hg.rest]
    refine ⟨?_, ?_, hg.carry hs.carry, ?_, ?_, fun id q r h hl => ?_⟩
    · rw [hopened, hclient]
      exact hs.sent.udpMessage hid hg.sent
    · rw [hopened, hclient, hdown]
      exact hs.loaded
    · rw [hclient]
      exact hs.inv
    · rw [hopened, hclient]
      exact hs.fresh
    · rw [hopened] at h
      rw [hclient] at hl
      rw [hg.current]
      exact hs.busy id q r h hl
  · cases h

/-- An event of a session, and what its link is given. -/
theorem client_some {a : ProxySession.Event} (h : step udp s (.client id a) = some t) :
    ∃ p req x, s.opened id = some (p, req) ∧ udp id = false ∧ (∀ cmd m, a ≠ .frame cmd m) ∧
      ProxySession.step (s.client id) a = some x ∧
      ProxyGiven (s.setClient id x) t p (clientMessage req (s.client id) a) := by
  simp only [step] at h
  split at h
  · cases h
  · cases h
  · rename_i p req ho hframe
    split at h
    · rename_i hc
      obtain ⟨x, hx, hsend⟩ := Option.bind_eq_some_iff.mp h
      exact ⟨p, req, x, ho, hc.1, fun cmd m => hframe cmd m, hx, proxySend_some hsend⟩
    · cases h

theorem proxySide_client {a : ProxySession.Event} (hs : ProxySide udp s)
    (h : step udp s (.client id a) = some t) : ProxySide udp t := by
  obtain ⟨p, req, x, ho, hid, ha, hx, hg⟩ := client_some h
  have hopened : t.opened = s.opened := by rw [hg.rest]; rfl
  have hclient : t.client = Function.update s.client id x := by rw [hg.rest]; rfl
  have hdown : t.down = s.down := by rw [hg.rest]; rfl
  refine ⟨?_, ?_, hg.carry hs.carry, fun i => ?_, fun i hn => ?_, fun i q r hi hl => ?_⟩
  · rw [hopened, hclient]
    exact hs.sent.moved hid ho hx hg.sent
  · rw [hopened, hclient, hdown]
    exact hs.loaded.moved ha hx
  · rw [hclient]
    by_cases hi : i = id
    · rw [hi, Function.update_self]
      exact ProxySession.inv_step (hs.inv id) hx
    · rw [Function.update_of_ne hi]
      exact hs.inv i
  · rw [hopened] at hn
    rw [hclient]
    by_cases hi : i = id
    · rw [hi, ho] at hn
      cases hn
    · rw [Function.update_of_ne hi]
      exact hs.fresh i hn
  · rw [hopened] at hi
    rw [hclient] at hl
    rw [hg.current]
    refine hs.busy i q r hi ?_
    by_cases hii : i = id
    · rw [hii, Function.update_self] at hl
      rw [hii]
      exact client_loop hx ha hl
    · rw [Function.update_of_ne hii] at hl
      exact hl

omit [DecidableEq W] in
theorem loadClient_cases (s : State P W Id) (p : P) (f : Frame Id) :
    (∃ req x, s.opened f.id = some (p, req) ∧
      ProxySession.step (s.client f.id) (.frame f.cmd f.payload) = some x ∧
      s.loadClient p f = (s.setClient f.id x).setProxy p { s.proxy p with current := some f.id }) ∨
    (∀ req, s.opened f.id = some (p, req) →
      ProxySession.step (s.client f.id) (.frame f.cmd f.payload) = none) ∧
      s.loadClient p f = s := by
  unfold State.loadClient
  split
  · rename_i q req ho
    split
    · rename_i hq
      subst hq
      split
      · rename_i x hx
        exact Or.inl ⟨req, x, ho, hx, rfl⟩
      · rename_i hx
        exact Or.inr ⟨fun _ _ => hx, rfl⟩
    · rename_i hq
      refine Or.inr ⟨fun r hr => ?_, rfl⟩
      rw [ho] at hr
      cases hr
      exact absurd rfl hq
  · rename_i ho
    refine Or.inr ⟨fun r hr => ?_, rfl⟩
    rw [ho] at hr
    cases hr

omit [DecidableEq P] [DecidableEq W] in
/-- While `readLoop` reads, no session of its link is being worked on. -/
theorem ProxySide.idle {req : BrokerRequest Id} (hs : ProxySide udp s)
    (hready : clientReady s p = true) (ho : s.opened id = some (p, req)) :
    (s.client id).loop = .idle := by
  by_contra hl
  rw [clientReady, hs.busy id p req ho hl] at hready
  exact hl (by simpa using hready)

theorem proxySide_proxyRead (hs : ProxySide udp s) (h : step udp s (.proxyRead p) = some t) :
    ProxySide udp t := by
  simp only [step] at h
  split at h
  · rename_i hready
    obtain ⟨⟨f, d⟩, hp, ht⟩ := Option.map_eq_some_iff.mp h
    have htaken := taken_update hp
    have hskip : (∀ req, udp f.id = false → s.opened f.id = some (p, req) →
        (s.client f.id).registered = false) →
        ProxySide udp { s with down := Function.update s.down p d } := fun hskip =>
      ⟨hs.sent, hs.loaded.skip hskip htaken, hs.carry, hs.inv, hs.fresh, hs.busy⟩
    dsimp only at ht
    split at ht
    · rename_i hid
      subst ht
      refine hskip fun req hu => ?_
      rw [hid] at hu
      cases hu
    · rcases loadClient_cases { s with down := Function.update s.down p d } p f with
        ⟨req, x, ho, hx, heq⟩ | ⟨hnone, heq⟩
      · rw [heq] at ht
        subst ht
        rename_i hid
        have hid : udp f.id = false := by simpa using hid
        have hproxy : ∀ q, (((({ s with down := Function.update s.down p d }).setClient f.id x).setProxy
            p { s.proxy p with current := some f.id }).proxy q) =
            { s.proxy q with current := if q = p then some f.id else (s.proxy q).current } := by
          intro q
          show Function.update s.proxy p { s.proxy p with current := some f.id } q = _
          by_cases hq : q = p
          · subst hq
            rw [Function.update_self, if_pos rfl]
          · rw [Function.update_of_ne hq, if_neg hq]
        refine ⟨?_, hs.loaded.take ho hx htaken, fun q => ?_, fun i => ?_, fun i hn => ?_,
          fun i q r hi hl => ?_⟩
        · refine hs.sent.moved hid ho hx fun q => ?_
          rw [hproxy]
          simp [clientMessage, clientPacket]
        · rw [hproxy]
          exact hs.carry q
        · show ProxySession.Inv (Function.update s.client f.id x i)
          by_cases hi : i = f.id
          · rw [hi, Function.update_self]
            exact ProxySession.inv_step (hs.inv f.id) hx
          · rw [Function.update_of_ne hi]
            exact hs.inv i
        · show Function.update s.client f.id x i = _
          by_cases hi : i = f.id
          · have hn : s.opened i = none := hn
            have ho : s.opened f.id = some (p, req) := ho
            rw [hi, ho] at hn
            cases hn
          · rw [Function.update_of_ne hi]
            exact hs.fresh i hn
        · have hopened : s.opened i = some (q, r) := hi
          have hloop : (Function.update s.client f.id x i).loop ≠ .idle := hl
          have ho : s.opened f.id = some (p, req) := ho
          rw [hproxy]
          by_cases hii : i = f.id
          · rw [hii, ho] at hopened
            cases hopened
            rw [if_pos rfl, hii]
          · rw [Function.update_of_ne hii] at hloop
            rw [if_neg]
            · exact hs.busy i q r hopened hloop
            · rintro rfl
              exact hloop (hs.idle hready hopened)
      · rw [heq] at ht
        subst ht
        exact hskip fun req _ ho => client_skipped (hnone req ho) (hs.idle hready ho)
  · cases h

/-- `writeLoop` writes, or fails to. -/
theorem proxyWrite_some {ok : Bool} (h : step udp s (.proxyWrite p ok) = some t) :
    ∃ m d, (s.proxy p).writing = true ∧ (s.proxy p).writeCh.pop = some (m, d) ∧
      t = if ok then
          { s.setProxy p { s.proxy p with writeCh := d } with
            up := Function.update s.up p ((s.up p).push m) }
        else s.setProxy p { s.proxy p with writeCh := d, writing := false, done := true } := by
  simp only [step] at h
  split at h
  · obtain ⟨⟨m, d⟩, hp, ht⟩ := Option.map_eq_some_iff.mp h
    exact ⟨m, d, ‹_›, hp, ht.symm⟩
  · cases h

omit [DecidableEq W] in
/-- A link moves without being given anything and without taking up a frame. -/
theorem ProxySide.relink {l : ProxyLink Id} (hs : ProxySide udp s) (hp : t.proxy = Function.update s.proxy p l)
    (hsent : l.writeCh.sent = (s.proxy p).writeCh.sent) (hcurrent : l.current = (s.proxy p).current)
    (hopened : t.opened = s.opened) (hclient : t.client = s.client) (hdown : t.down = s.down)
    (hcarry : ∀ q, Carries (fun m => m) (t.proxy q).writeCh (t.up q) (t.proxy q).writing) :
    ProxySide udp t := by
  have hgiven : (fun q => (t.proxy q).writeCh.sent) = fun q => (s.proxy q).writeCh.sent := by
    funext q
    rw [hp]
    by_cases hq : q = p
    · rw [hq, Function.update_self, hsent]
    · rw [Function.update_of_ne hq]
  refine ⟨?_, ?_, hcarry, ?_, ?_, fun i q r hi hl => ?_⟩
  · rw [hopened, hclient, hgiven]
    exact hs.sent
  · rw [hopened, hclient, hdown]
    exact hs.loaded
  · rw [hclient]
    exact hs.inv
  · rw [hopened, hclient]
    exact hs.fresh
  · rw [hopened] at hi
    rw [hclient] at hl
    have hcur := hs.busy i q r hi hl
    rw [hp]
    by_cases hq : q = p
    · rw [hq] at hcur
      rw [hq, Function.update_self, hcurrent, hcur]
    · rw [Function.update_of_ne hq, hcur]

theorem proxySide_proxyWrite {ok : Bool} (hs : ProxySide udp s)
    (h : step udp s (.proxyWrite p ok) = some t) : ProxySide udp t := by
  obtain ⟨m, d, hw, hp, rfl⟩ := proxyWrite_some h
  have hcarry := hs.carry p
  rw [hw] at hcarry
  cases ok with
  | true =>
    refine hs.relink (p := p) rfl (Fifo.pop_some hp).1 rfl rfl rfl rfl fun q => ?_
    show Carries _ (Function.update s.proxy p _ q).writeCh
      (Function.update s.up p _ q) (Function.update s.proxy p _ q).writing
    by_cases hq : q = p
    · rw [hq, Function.update_self, Function.update_self, hw]
      exact hcarry.write hp
    · rw [Function.update_of_ne hq, Function.update_of_ne hq]
      exact hs.carry q
  | false =>
    refine hs.relink (p := p) rfl (Fifo.pop_some hp).1 rfl rfl rfl rfl fun q => ?_
    show Carries _ (Function.update s.proxy p _ q).writeCh (s.up q)
      (Function.update s.proxy p _ q).writing
    by_cases hq : q = p
    · rw [hq, Function.update_self]
      exact hcarry.lose hp
    · rw [Function.update_of_ne hq]
      exact hs.carry q

omit [DecidableEq W] in
/-- A link of which neither the channel nor the websocket is touched. -/
theorem ProxySide.touch {l : ProxyLink Id} (hs : ProxySide udp s)
    (hsend : l.writeCh = (s.proxy p).writeCh) (hwriting : l.writing = (s.proxy p).writing)
    (hcurrent : l.current = (s.proxy p).current) : ProxySide udp (s.setProxy p l) := by
  refine hs.relink (p := p) rfl (by rw [hsend]) hcurrent rfl rfl rfl fun q => ?_
  show Carries _ (Function.update s.proxy p l q).writeCh (s.up q)
    (Function.update s.proxy p l q).writing
  by_cases hq : q = p
  · rw [hq, Function.update_self, hsend, hwriting]
    exact hs.carry p
  · rw [Function.update_of_ne hq]
    exact hs.carry q

end ProxySide

end SplitProxy.Tunnels
