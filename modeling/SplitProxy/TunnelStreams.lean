import SplitProxy.TunnelBroker

/-!
# What a tunnel delivers

In every run of proxies, broker and workers in which no worker queues a chunk of a
session after it has dropped one, what a client gets is an initial segment of what
was read from its target, and what a target gets of what was read from its client.
-/
namespace SplitProxy.Tunnels

open Runs SessionTable
open TableStreams (Message framesOf dataFor workerFrames proxyFrames workerData proxyData)
open WorkerSession (Started)

variable {P W Id : Type} [DecidableEq P] [DecidableEq W] [DecidableEq Id]

theorem mem_dataFor {d : Payload} {id : Id} {fs : List (Frame Id)} :
    d ∈ dataFor id fs ↔ ∃ cmd, cmd.carriesData = true ∧ ⟨id, cmd, d⟩ ∈ fs := by
  rw [dataFor, mem_dataOf]
  simp only [mem_packetsOf]

omit [DecidableEq Id] in
theorem framesOf_mono {ms ns : List (Message Id)} (h : ms <+: ns) : framesOf ms <+: framesOf ns :=
  h.filterMap _

/-! ## Where frames come from -/

/-- The three parts of the system, joined by the websockets. -/
structure Inv (udp : Id → Bool) (s : State P W Id) : Prop where
  proxies : ProxySide udp s
  broker : BrokerSide udp s
  workers : WorkerSide udp s

section Origins

variable {udp : Id → Bool} {s t : State P W Id} {p : P} {w : W} {id : Id} {f : Frame Id}

section

omit [DecidableEq P] [DecidableEq W]

theorem Inv.down_le (hs : Inv udp s) (p : P) : (s.down p).taken <+: proxyFrames s.broker.table p :=
  (hs.broker.down p).arrived

theorem Inv.toWorker_le (hs : Inv udp s) (w : W) :
    (s.toWorker w).sent <+: workerFrames s.broker.table w :=
  (hs.broker.toWorker w).sent_le

theorem Inv.read_le (hs : Inv udp s) (p : P) : s.broker.read p <+: (s.proxy p).writeCh.sent := by
  rw [hs.broker.read]
  simpa using (hs.proxies.carry p).arrived

theorem Inv.got_le (hs : Inv udp s) (w : W) : s.broker.got w <+: (s.worker w).send.sent := by
  rw [hs.broker.got]
  simpa using (hs.workers.carry w).arrived

/-- A worker has made a session only for one the broker has stored. -/
theorem Inv.stored_of_started (hs : Inv udp s) (hid : udp id = false)
    (h : Started (s.session w id)) : ∃ x, s.broker.stored id = some x ∧ x.worker = w := by
  obtain ⟨payload, hmem⟩ := (hs.workers.served w id hid).spawned h.1
  have hframe : ⟨id, .connect, payload⟩ ∈ workerFrames s.broker.table w :=
    (hs.toWorker_le w).subset (Fifo.taken_subset hmem)
  obtain ⟨x, hx, hw, -⟩ := hs.broker.flows.connect w _ hframe rfl
  exact ⟨x, hx, hw⟩

/-- A session of a worker that has sent anything has been stored there. -/
theorem Inv.started_of_sent (hs : Inv udp s) (hid : udp f.id = false)
    (h : f ∈ (s.worker w).send.sent) : Started (s.session w f.id) := by
  have hmem : (f.cmd, f.payload) ∈ packetsOf f.id (s.worker w).send.sent := mem_packetsOf.mpr h
  rw [(hs.workers.served w f.id hid).packets] at hmem
  by_contra hn
  rw [unstarted (hs.workers.inv w f.id) hn] at hmem
  cases hmem

/-- A proxy sends data of a session only after the answer of the worker that has it. -/
theorem Inv.started_of_data (hs : Inv udp s) (hid : udp f.id = false)
    (hc : f.cmd.carriesData = true) (h : f ∈ framesOf (s.proxy p).writeCh.sent) :
    ∃ x, s.broker.stored f.id = some x ∧ x.proxy = p ∧ Started (s.session x.worker f.id) := by
  have hmem : (f.cmd, f.payload) ∈ packetsOf f.id (framesOf (s.proxy p).writeCh.sent) :=
    mem_packetsOf.mpr h
  obtain ⟨req, ho⟩ : ∃ req, s.opened f.id = some (p, req) := by
    by_contra hn
    rw [hs.proxies.sent.foreign f.id p hid fun req hr => hn ⟨req, hr⟩] at hmem
    cases hmem
  rw [hs.proxies.sent.packets f.id p req hid ho] at hmem
  have hinv := hs.proxies.inv f.id
  -- data is sent by the goroutine that reads the client, which starts after the answer
  have hclient : (s.client f.id).client ≠ .notStarted := by
    intro hn
    have hem := hinv.emitted
    simp only [ProxySession.Emitted, hn] at hem
    have hd : f.payload ∈ dataOf (s.client f.id).emitted := mem_dataOf.mpr ⟨f.cmd, hc, hmem⟩
    rw [hem.1] at hd
    cases hd
  obtain ⟨q, hq⟩ := hinv.causal.client hclient
  have hanswer := (hs.down_le p).subset (hs.proxies.loaded.mem f.id p req ho _ hq)
  obtain ⟨x, hx, hp, hgot⟩ := hs.broker.flows.connected p _ hanswer rfl
  exact ⟨x, hx, hp, hs.started_of_sent (f := ⟨f.id, .connected, q⟩) hid
    ((hs.got_le x.worker).subset hgot)⟩

end

omit [DecidableEq P] in
/-- Data of a session comes to a worker only once `openTCP` has stored it there. -/
theorem Inv.started_of_forwarded (hs : Inv udp s) (hid : udp f.id = false)
    (hc : f.cmd.carriesData = true) (h : f ∈ (s.toWorker w).sent) :
    Started (s.session w f.id) := by
  have hd : f.payload ∈ workerData s.broker.table w f.id :=
    mem_dataFor.mpr ⟨f.cmd, hc, (hs.toWorker_le w).subset h⟩
  rcases hs.broker.flows.up.out_le (l := w) hid with hnil | ⟨x, hx, rfl, hle⟩
  · rw [hnil] at hd
    cases hd
  · obtain ⟨cmd, hcmd, hmem⟩ := mem_dataFor.mp (hle.subset hd)
    have hsent := (framesOf_mono (hs.read_le x.proxy)).subset hmem
    obtain ⟨y, hy, -, hst⟩ :=
      hs.started_of_data (f := ⟨f.id, cmd, f.payload⟩) hid hcmd hsent
    have hy : s.broker.stored f.id = some y := hy
    rw [hx] at hy
    cases hy
    exact hst

omit [DecidableEq W] in
/-- Nothing has come to a proxy for an id it has not opened. -/
theorem Inv.unopened (hs : Inv udp s) (hnone : s.opened id = none) (hid : udp id = false) :
    dataFor id (s.down p).taken = [] := by
  refine List.eq_nil_iff_forall_not_mem.mpr fun d hd => ?_
  have hd : d ∈ proxyData s.broker.table p id :=
    (TableStreams.dataFor_mono id (hs.down_le p)).subset hd
  rcases hs.broker.flows.down.out_le (l := p) hid with hnil | ⟨x, hx, -, -⟩
  · rw [hnil] at hd
    cases hd
  · obtain ⟨req, hreq, hri, -⟩ := hs.broker.flows.tracked.requested id x hx
    have ho := (hs.proxies.sent.requested _ req ((hs.read_le _).subset hreq)).1
    rw [hri, hnone] at ho
    cases ho

end Origins

/-! ## Every step -/

section Step

variable {udp : Id → Bool} {s t : State P W Id} {p : P} {w : W} {id : Id} {e : Event P W Id}

section

omit [DecidableEq P] [DecidableEq W]

theorem inv_initial (udp : Id → Bool) : Inv udp (initial P W Id) :=
  ⟨proxySide_initial udp, brokerSide_initial udp, workerSide_initial udp⟩

theorem Inv.fed_message (hs : Inv udp s) {m : Message Id} {d : Fifo (Message Id)}
    (hp : (s.up p).pop = some (m, d)) :
    TableStreams.Fed (fun id => udp id = false) s.broker (.proxyMessage p m) := by
  have hle : s.broker.read p ++ [m] <+: (s.proxy p).writeCh.sent := by
    rw [hs.broker.read, ← (Fifo.pop_some hp).2.1]
    refine d.ordered.trans ?_
    rw [(Fifo.pop_some hp).1]
    simpa using (hs.proxies.carry p).sent_le
  cases m with
  | frame f =>
    intro hid hc
    obtain ⟨x, hx, -, -⟩ := hs.started_of_data (p := p) hid hc
      ((framesOf_mono hle).subset (by
        rw [TableStreams.framesOf_append]
        exact List.mem_append_right _ (List.mem_singleton_self f)))
    exact ⟨x, hx⟩
  | request req =>
    intro q r hr hid
    have hq := (hs.proxies.sent.requested q r ((hs.read_le q).subset hr)).1
    have hreq := (hs.proxies.sent.requested p req
      (hle.subset (List.mem_append_right _ (List.mem_singleton_self _)))).1
    rw [hid, hreq] at hq
    cases hq
    exact hs.proxies.sent.distinct hle hr hid

theorem Inv.fed_frame (hs : Inv udp s) {f : Frame Id} {d : Fifo (Frame Id)}
    (hp : (s.toBroker w).pop = some (f, d)) :
    TableStreams.Fed (fun id => udp id = false) s.broker (.workerMessage w f) := by
  intro hid _
  have hle : (s.toBroker w).sent <+: (s.worker w).send.sent := by
    simpa using (hs.workers.carry w).sent_le
  have hst := hs.started_of_sent hid (hle.subset (Fifo.mem_of_pop hp))
  obtain ⟨x, hx, -⟩ := hs.stored_of_started hid hst
  exact ⟨x, hx⟩

end

section

omit [DecidableEq P] [DecidableEq W] [DecidableEq Id]

/-- What is left alone when only the proxies' part changes. -/
theorem same_proxy (h : t = { s with
      proxy := t.proxy, opened := t.opened, client := t.client, up := t.up, down := t.down })
    (hup : ∀ p, (t.up p).taken = (s.up p).taken) (hdown : ∀ p, (t.down p).sent = (s.down p).sent) :
    SameBroker s t ∧ SameWorkers s t := by
  constructor
  · exact ⟨by rw [h], by rw [h], by rw [h], hup, fun _ => by rw [h], hdown, fun _ => by rw [h]⟩
  · exact ⟨by rw [h], by rw [h], fun _ => by rw [h], fun _ => by rw [h]⟩

/-- What is left alone when only the broker's part changes. -/
theorem same_broker (h : t = { s with
      broker := t.broker, proxyWriting := t.proxyWriting, workerWriting := t.workerWriting,
      up := t.up, toBroker := t.toBroker, down := t.down, toWorker := t.toWorker })
    (hup : ∀ p, (t.up p).sent = (s.up p).sent) (hdown : ∀ p, (t.down p).taken = (s.down p).taken)
    (hto : ∀ w, (t.toBroker w).sent = (s.toBroker w).sent)
    (hwk : ∀ w, (t.toWorker w).taken = (s.toWorker w).taken) :
    SameProxies s t ∧ SameWorkers s t := by
  constructor
  · exact ⟨by rw [h], by rw [h], by rw [h], hup, hdown⟩
  · exact ⟨by rw [h], by rw [h], hto, hwk⟩

/-- What is left alone when only the workers' part changes. -/
theorem same_worker (h : t = { s with
      worker := t.worker, session := t.session, toBroker := t.toBroker, toWorker := t.toWorker })
    (hto : ∀ w, (t.toBroker w).taken = (s.toBroker w).taken)
    (hwk : ∀ w, (t.toWorker w).sent = (s.toWorker w).sent) :
    SameProxies s t ∧ SameBroker s t := by
  constructor
  · exact ⟨by rw [h], by rw [h], by rw [h], fun _ => by rw [h], fun _ => by rw [h]⟩
  · exact ⟨by rw [h], by rw [h], by rw [h], fun _ => by rw [h], hto, fun _ => by rw [h], hwk⟩

end

theorem same_ofProxy (he : partyOf e = .proxy) (h : step udp s e = some t) :
    SameBroker s t ∧ SameWorkers s t := by
  cases e with
  | openSession q req =>
    simp only [step] at h
    split at h <;> cases h
    exact same_proxy rfl (fun _ => rfl) fun _ => rfl
  | openUDP q req | udpMessage q f =>
    simp only [step] at h
    split at h
    · have hg := proxySend_some h
      exact same_proxy (by rw [hg.rest]) (fun _ => by rw [hg.rest]) fun _ => by rw [hg.rest]
    · cases h
  | client i a =>
    obtain ⟨q, req, x, -, -, -, -, hg⟩ := client_some h
    exact same_proxy (by rw [hg.rest]; rfl) (fun _ => by rw [hg.rest]; rfl)
      fun _ => by rw [hg.rest]; rfl
  | proxyRead q =>
    simp only [step] at h
    split at h
    · obtain ⟨⟨f, d⟩, hp, ht⟩ := Option.map_eq_some_iff.mp h
      have hdown := sent_update hp
      dsimp only at ht
      split at ht
      · subst ht
        exact same_proxy rfl (fun _ => rfl) hdown
      · rcases loadClient_cases { s with down := Function.update s.down q d } q f with
          ⟨req, x, -, -, heq⟩ | ⟨-, heq⟩
        · rw [heq] at ht
          subst ht
          exact same_proxy rfl (fun _ => rfl) hdown
        · rw [heq] at ht
          subst ht
          exact same_proxy rfl (fun _ => rfl) hdown
    · cases h
  | proxyWrite q ok =>
    obtain ⟨m, d, -, hp, rfl⟩ := proxyWrite_some h
    cases ok with
    | true => exact same_proxy rfl (taken_push s.up q m) fun _ => rfl
    | false => exact same_proxy rfl (fun _ => rfl) fun _ => rfl
  | proxyDown q =>
    cases h
    exact same_proxy rfl (fun _ => rfl) fun _ => rfl
  | _ => cases he

theorem same_ofBroker (he : partyOf e = .broker) (h : step udp s e = some t) :
    SameProxies s t ∧ SameWorkers s t := by
  cases e with
  | brokerRead q =>
    obtain ⟨⟨m, d⟩, hp, h⟩ := Option.bind_eq_some_iff.mp h
    obtain ⟨b, -, rfl⟩ := Option.map_eq_some_iff.mp h
    exact same_broker rfl (sent_update hp) (fun _ => rfl) (fun _ => rfl) fun _ => rfl
  | brokerTake v =>
    obtain ⟨⟨f, d⟩, hp, h⟩ := Option.bind_eq_some_iff.mp h
    obtain ⟨b, -, rfl⟩ := Option.map_eq_some_iff.mp h
    exact same_broker rfl (fun _ => rfl) (fun _ => rfl) (sent_update hp) fun _ => rfl
  | broker a =>
    simp only [step] at h
    split at h
    · cases h
    · obtain ⟨b, -, rfl⟩ := Option.map_eq_some_iff.mp h
      exact same_broker rfl (fun _ => rfl) (fun _ => rfl) (fun _ => rfl) fun _ => rfl
  | proxyWriter q ok | workerWriter v ok =>
    simp only [step] at h
    split at h
    · obtain ⟨⟨f, d⟩, -, h⟩ := Option.bind_eq_some_iff.mp h
      obtain ⟨b, -, rfl⟩ := Option.map_eq_some_iff.mp h
      cases ok with
      | true =>
        refine same_broker rfl (fun _ => rfl) ?_ (fun _ => rfl) ?_
        · first | exact taken_push s.down q f.frame | exact fun _ => rfl
        · first | exact taken_push s.toWorker v f.frame | exact fun _ => rfl
      | false => exact same_broker rfl (fun _ => rfl) (fun _ => rfl) (fun _ => rfl) fun _ => rfl
    · cases h
  | _ => cases he

theorem same_ofWorker (he : partyOf e = .worker) (h : step udp s e = some t) :
    SameProxies s t ∧ SameBroker s t := by
  cases e with
  | workerRead v =>
    simp only [step] at h
    split at h
    · obtain ⟨⟨f, d⟩, hp, ht⟩ := Option.bind_eq_some_iff.mp h
      have hwk := sent_update hp
      dsimp only at ht
      split at ht
      · cases ht
        exact same_worker rfl (fun _ => rfl) hwk
      · cases dispatch_cases ht with
        | ignored _ ht | skipped _ ht | spawned _ _ ht | loaded _ ht =>
          rw [ht]
          exact same_worker rfl (fun _ => rfl) hwk
    · cases h
  | session v i a =>
    obtain ⟨x, -, -, -, hg⟩ := session_some h
    exact same_worker (by rw [hg.rest]; rfl) (fun _ => by rw [hg.rest]; rfl)
      fun _ => by rw [hg.rest]; rfl
  | udpFrame v f =>
    simp only [step] at h
    split at h
    · have hg := workerSend_some h
      exact same_worker (by rw [hg.rest]) (fun _ => by rw [hg.rest]) fun _ => by rw [hg.rest]
    · cases h
  | workerWrite v ok =>
    obtain ⟨f, d, -, -, rfl⟩ := workerWrite_some h
    cases ok with
    | true => exact same_worker rfl (taken_push s.toBroker v f) fun _ => rfl
    | false => exact same_worker rfl (fun _ => rfl) fun _ => rfl
  | workerLeave v =>
    simp only [step] at h
    split at h <;> cases h
    exact same_worker rfl (fun _ => rfl) fun _ => rfl
  | workerDown v | cancel v =>
    cases h
    exact same_worker rfl (fun _ => rfl) fun _ => rfl
  | _ => cases he

theorem proxySide_step (hs : Inv udp s) (he : partyOf e = .proxy) (h : step udp s e = some t) :
    ProxySide udp t := by
  cases e with
  | openSession q req => exact proxySide_openSession hs.proxies hs.unopened h
  | openUDP q req => exact proxySide_openUDP hs.proxies h
  | udpMessage q f => exact proxySide_udpMessage hs.proxies h
  | client i a => exact proxySide_client hs.proxies h
  | proxyRead q => exact proxySide_proxyRead hs.proxies h
  | proxyWrite q ok => exact proxySide_proxyWrite hs.proxies h
  | proxyDown q =>
    cases h
    exact hs.proxies.touch rfl rfl rfl
  | _ => cases he

theorem brokerSide_step (hs : Inv udp s) (he : partyOf e = .broker) (h : step udp s e = some t) :
    BrokerSide udp t := by
  cases e with
  | brokerRead q => exact brokerSide_brokerRead hs.broker (fun _ _ => hs.fed_message) h
  | brokerTake v => exact brokerSide_brokerTake hs.broker (fun _ _ => hs.fed_frame) h
  | broker a => exact brokerSide_broker hs.broker h
  | proxyWriter q ok => exact brokerSide_proxyWriter hs.broker h
  | workerWriter v ok => exact brokerSide_workerWriter hs.broker h
  | _ => cases he

theorem workerSide_step (hs : Inv udp s) (he : partyOf e = .worker) (h : step udp s e = some t) :
    WorkerSide udp t := by
  cases e with
  | workerRead v =>
    exact workerSide_workerRead hs.workers (fun f hf hid hc => hs.started_of_forwarded hid hc hf) h
  | session v i a => exact workerSide_session hs.workers h
  | udpFrame v f => exact workerSide_udpFrame hs.workers h
  | workerWrite v ok => exact workerSide_workerWrite hs.workers h
  | workerLeave v =>
    simp only [step] at h
    split at h <;> cases h
    exact hs.workers.touch rfl rfl rfl
  | workerDown v | cancel v =>
    cases h
    exact hs.workers.touch rfl rfl rfl
  | _ => cases he

theorem inv_step (hs : Inv udp s) (h : step udp s e = some t) : Inv udp t := by
  cases he : partyOf e with
  | proxy =>
    obtain ⟨hb, hw⟩ := same_ofProxy he h
    exact ⟨proxySide_step hs he h, hs.broker.keep hb, hs.workers.keep hw⟩
  | broker =>
    obtain ⟨hp, hw⟩ := same_ofBroker he h
    exact ⟨hs.proxies.keep hp, brokerSide_step hs he h, hs.workers.keep hw⟩
  | worker =>
    obtain ⟨hp, hb⟩ := same_ofWorker he h
    exact ⟨hs.proxies.keep hp, hs.broker.keep hb, workerSide_step hs he h⟩

theorem inv_run {es : List (Event P W Id)} (hs : Inv udp s) (h : run (step udp) s es = some t) :
    Inv udp t := run_preserves (fun _ _ _ => inv_step) hs h

/-- At most one session of a worker moves, and its write queue only when the event says so. -/
theorem session_step (h : step udp s e = some t) :
    t.session = s.session ∨ ∃ w id a x, WorkerSession.step (s.session w id) a = some x ∧
      (∀ v i, t.session v i = if v = w ∧ i = id then x else s.session v i) ∧
      (a = .queueData → queues e = some (w, id)) := by
  cases he : partyOf e with
  | proxy => exact Or.inl (same_ofProxy he h).2.session
  | broker => exact Or.inl (same_ofBroker he h).2.session
  | worker =>
    cases e with
    | workerRead w =>
      simp only [step] at h
      split at h
      · obtain ⟨⟨f, d⟩, -, ht⟩ := Option.bind_eq_some_iff.mp h
        dsimp only at ht
        split at ht
        · cases ht
          exact Or.inl rfl
        · cases dispatch_cases ht with
          | ignored _ ht | skipped _ ht =>
            rw [ht]
            exact Or.inl rfl
          | @spawned x _ hx ht | @loaded x hx ht =>
            refine Or.inr ⟨w, f.id, _, x, hx, fun v i => ?_, (by simp)⟩
            rw [ht]
            exact setSession_session _ w f.id x v i
      · cases h
    | session w id a =>
      obtain ⟨x, -, -, hx, hg⟩ := session_some h
      refine Or.inr ⟨w, id, a, x, hx, fun v i => ?_, ?_⟩
      · rw [hg.rest]
        exact setSession_session s w id x v i
      · rintro rfl
        rfl
    | udpFrame w f =>
      simp only [step] at h
      split at h
      · rw [(workerSend_some h).rest]
        exact Or.inl rfl
      · cases h
    | workerWrite w ok =>
      obtain ⟨f, d, -, -, rfl⟩ := workerWrite_some h
      cases ok <;> exact Or.inl rfl
    | workerLeave w =>
      simp only [step] at h
      split at h <;> cases h
      exact Or.inl rfl
    | workerDown w | cancel w =>
      cases h
      exact Or.inl rfl
    | _ => cases he

/-- No write queue has been given anything but what came, in order. -/
def Ordered (s : State P W Id) : Prop := ∀ w id, WorkerSession.Queued (s.session w id)

theorem ordered_step (hs : Inv udp s) (ho : Ordered s) (hkeep : KeepsOrder s e)
    (h : step udp s e = some t) : Ordered t := by
  intro v i
  rcases session_step h with heq | ⟨w, id, a, x, hx, heq, hq⟩
  · rw [heq]
    exact ho v i
  · rw [heq]
    split
    · exact WorkerSession.queued_step (hs.workers.inv w id).storedFirst (ho w id)
        (fun ha => hkeep (w, id) (hq ha)) hx
    · exact ho v i

theorem ordered_run {es : List (Event P W Id)} (hs : Inv udp s) (ho : Ordered s)
    (hkeep : Meets (step udp) KeepsOrder s es) (h : run (step udp) s es = some t) : Ordered t :=
  (run_invariant (I := fun s => Inv udp s ∧ Ordered s)
    (fun _ _ _ hI hk h => ⟨inv_step hI.1 h, ordered_step hI.1 hI.2 hk h⟩) ⟨hs, ho⟩ hkeep h).2

end Step

/-! ## The tunnels -/

section Tunnels

variable {udp : Id → Bool} {s t : State P W Id} {id : Id}

omit [DecidableEq W] in
/-- What the client gets comes from the target of its own session. -/
theorem Inv.client_intact (hs : Inv udp s) (hid : udp id = false) :
    ProxySession.clientBytes (s.client id) = [] ∨ ∃ x, s.broker.stored id = some x ∧
      ProxySession.clientBytes (s.client id) <+: (s.session x.worker id).fromTarget := by
  have hle := ProxySession.clientBytes_le (hs.proxies.inv id)
  cases ho : s.opened id with
  | none =>
    rw [hs.proxies.fresh id ho] at hle ⊢
    exact Or.inl rfl
  | some r =>
    obtain ⟨p, req⟩ := r
    have hdata : dataOf (s.client id).received <+: proxyData s.broker.table p id :=
      (hs.proxies.loaded.data id p req hid ho).trans
        (TableStreams.dataFor_mono id (hs.down_le p))
    rcases hs.broker.flows.down.out_le (l := p) hid with hnil | ⟨x, hx, -, hread⟩
    · rw [hnil, List.prefix_nil] at hdata
      rw [hdata] at hle
      exact Or.inl (List.prefix_nil.mp hle)
    · have hgot : dataFor id (s.broker.got x.worker) <+:
          dataOf (s.session x.worker id).emitted := by
        rw [← (hs.workers.served x.worker id hid).packets]
        exact TableStreams.dataFor_mono id (hs.got_le x.worker)
      have hemitted := WorkerSession.emitted_le (hs.workers.inv x.worker id).emitted
      exact Or.inr ⟨x, hx, ((hle.trans (flatten_mono hdata)).trans
        (flatten_mono (hread.trans hgot))).trans hemitted⟩

omit [DecidableEq P] in
/-- What a target gets comes from the client of its own session. -/
theorem Inv.target_intact (hs : Inv udp s) (ho : Ordered s) (hid : udp id = false) (w : W) :
    WorkerSession.targetBytes (s.session w id) <+: (s.client id).fromClient := by
  have hle := WorkerSession.targetBytes_le (hs.workers.inv w id) (ho w id)
  have hdata : dataOf (s.session w id).received <+: workerData s.broker.table w id :=
    (hs.workers.served w id hid).data.trans (TableStreams.dataFor_mono id
      ((s.toWorker w).ordered.trans (hs.toWorker_le w)))
  rcases hs.broker.flows.up.out_le (l := w) hid with hnil | ⟨x, hx, -, hread⟩
  · rw [hnil, List.prefix_nil] at hdata
    rw [hdata] at hle
    rw [List.prefix_nil.mp hle]
    exact List.nil_prefix
  · obtain ⟨req, hreq, hri, -⟩ := hs.broker.flows.tracked.requested id x hx
    have hopen := (hs.proxies.sent.requested _ req ((hs.read_le _).subset hreq)).1
    rw [hri] at hopen
    have hsent : dataFor id (framesOf (s.broker.read x.proxy)) <+: dataOf (s.client id).emitted := by
      rw [← hs.proxies.sent.packets id x.proxy req hid hopen]
      exact TableStreams.dataFor_mono id (framesOf_mono (hs.read_le x.proxy))
    have hemitted := ProxySession.emitted_le (hs.proxies.inv id).emitted
    exact ((hle.trans (flatten_mono hdata)).trans (flatten_mono (hread.trans hsent))).trans hemitted

/-- What clients get is never corrupted. -/
theorem client_intact_run {es : List (Event P W Id)} (h : run (step udp) (initial P W Id) es = some t)
    (hid : udp id = false) :
    ProxySession.clientBytes (t.client id) = [] ∨ ∃ x, t.broker.stored id = some x ∧
      ProxySession.clientBytes (t.client id) <+: (t.session x.worker id).fromTarget :=
  (inv_run (inv_initial udp) h).client_intact hid

/-- No tunnel is corrupted in a run in which no worker queues a chunk of a session
after it has dropped one: the client and the target of every session have initial
segments of what the other has sent. -/
theorem intact_of_keepsOrder (udp : Id → Bool) (es : List (Event P W Id)) (t : State P W Id)
    (hkeep : Meets (step udp) KeepsOrder (initial P W Id) es)
    (h : run (step udp) (initial P W Id) es = some t) (id : Id) (hid : udp id = false) :
    Intact t id := by
  have hs := inv_run (inv_initial udp) h
  have ho := ordered_run (inv_initial udp) (fun _ _ => WorkerSession.queued_fresh) hkeep h
  exact ⟨hs.client_intact hid, hs.target_intact ho hid⟩

/-! ## A tunnel to a target that stops sending -/

/-- The tunnel is opened and two chunks of the client come to the worker, while the
target has closed its half and `remoteReader` closes the session. -/
def twoChunks : List (Event Unit Unit Nat) :=
  [.openSession () ⟨0, .tcp, [], []⟩, .client 0 .requestSent, .proxyWrite () true, .brokerRead (),
    .broker (.handler () (.getWorker (some ()))), .broker (.handler () .store),
    .broker (.handler () .connectSent), .workerWriter () true, .workerRead (),
    .session () 0 .loadOrStore, .session () 0 .dialOk, .session () 0 .setConn,
    .session () 0 .startGoroutines, .session () 0 (.connectedSent true), .workerWrite () true,
    .brokerTake (), .broker (.reader () (.forwarded true)), .proxyWriter () true, .proxyRead (),
    .client 0 .signalConnected, .client 0 .connectOk, .client 0 .responseOk,
    .client 0 (.clientRead [1]), .client 0 .clientSent, .client 0 (.clientRead [2]),
    .client 0 .clientSent, .proxyWrite () true, .proxyWrite () true,
    .brokerRead (), .broker (.handler () .dataSent), .brokerRead (),
    .broker (.handler () .dataSent), .workerWriter () true, .workerWriter () true,
    .session () 0 .readerStart, .session () 0 (.targetRead [] true),
    .session () 0 (.closeBegin .reader)]

/-- The second chunk is queued and written after the first was dropped. -/
def skipsFirst : List (Event Unit Unit Nat) :=
  [.workerRead (), .session () 0 (.dropData false), .workerRead (), .session () 0 .queueData,
    .session () 0 .takeChunk, .session () 0 .connFound, .session () 0 (.writeSome 1)]

/-- Both chunks are queued, and the first is written. -/
def queuesBoth : List (Event Unit Unit Nat) :=
  [.workerRead (), .session () 0 .queueData, .workerRead (), .session () 0 .queueData,
    .session () 0 .takeChunk, .session () 0 .connFound, .session () 0 (.writeSome 1)]

theorem intact_queued : ∃ t, run (step fun _ => false) (initial Unit Unit Nat)
    (twoChunks ++ queuesBoth) = some t ∧ WorkerSession.targetBytes (t.session () 0) = [1] ∧
      Intact t 0 := by
  obtain ⟨t, ht⟩ : ∃ t, run (step fun _ => false) (initial Unit Unit Nat)
      (twoChunks ++ queuesBoth) = some t := Option.isSome_iff_exists.mp (by decide +kernel)
  exact ⟨t, ht,
    run_component ht (fun t => WorkerSession.targetBytes (t.session () 0)) (by decide +kernel),
    intact_of_keepsOrder _ _ t (by decide +kernel) ht 0 rfl⟩

/-- The target gets the second chunk without the first. -/
theorem first_chunk_skipped : ¬∀ (udp : Nat → Bool) (es : List (Event Unit Unit Nat))
    (t : State Unit Unit Nat), run (step udp) (initial Unit Unit Nat) es = some t →
    ∀ id, udp id = false → Intact t id := by
  intro hall
  obtain ⟨t, ht⟩ : ∃ t, run (step fun _ => false) (initial Unit Unit Nat)
      (twoChunks ++ skipsFirst) = some t := Option.isSome_iff_exists.mp (by decide +kernel)
  have hbytes := run_component ht (fun t => (WorkerSession.targetBytes (t.session () 0),
    (t.client 0).fromClient)) (b := ([2], [1, 2])) (by decide +kernel)
  have hle := (hall _ _ t ht 0 rfl).target ()
  rw [(Prod.mk.inj hbytes).1, (Prod.mk.inj hbytes).2] at hle
  exact absurd hle (by decide)

end Tunnels

end SplitProxy.Tunnels
