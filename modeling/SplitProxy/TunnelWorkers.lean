import SplitProxy.Tunnels

/-!
# The workers' part of the tunnels

What a broker connection of a worker is given is, session by session, what that
session has sent. A session has loaded the data that came for it while it is in
the map; before `openTCP` has stored it none comes.
-/
namespace SplitProxy.Tunnels

open Runs SessionTable
open TableStreams (dataFor dataFor_append dataFor_mono dataFor_plain dataFor_self dataFor_other)
open WorkerSession (Started)

variable {P W Id : Type} [DecidableEq P] [DecidableEq W] [DecidableEq Id]

/-! ## One session -/

section Session

variable {x y : WorkerSession.Session} {e : WorkerSession.Event}

theorem session_emitted (h : WorkerSession.step x e = some y) :
    y.emitted = x.emitted ++ (sessionPacket x e).toList := by
  cases WorkerSession.step_move h with
  | @openCloseSent ok | @connectedSent ok | @readerCloseSent ok | @loopCloseSent ok =>
    cases ok <;> simp [sessionPacket]
  | chunkSent hr => simp [sessionPacket, hr]
  | _ => simp [sessionPacket]

theorem session_received (h : WorkerSession.step x e = some y) (he : ∀ cmd p, e ≠ .frame cmd p) :
    y.received = x.received := by
  cases WorkerSession.step_move h with
  | dataFrame | closeFrame => exact absurd rfl (he _ _)
  | connFound | writeSome => exact WorkerSession.wrote_received ..
  | _ => rfl

/-- The loop takes up a frame of the session only by reading one. -/
theorem session_loop (h : WorkerSession.step x e = some y) (he : ∀ cmd p, e ≠ .frame cmd p)
    (hy : y.loop ≠ .idle) : x.loop ≠ .idle := by
  cases WorkerSession.step_move h with
  | dataFrame | closeFrame => exact absurd rfl (he _ _)
  | _ => simp_all

/-- Only the connect frame starts the open goroutine. -/
theorem session_opener (h : WorkerSession.step x e = some y) (he : e ≠ .spawn)
    (hy : y.opener ≠ .idle) : x.opener ≠ .idle := by
  cases WorkerSession.step_move h with
  | spawn => exact absurd rfl he
  | openerDeletes ho => rcases ho with ho | ho <;> simp [ho]
  | _ => simp_all

theorem spawn_some (h : WorkerSession.step x .spawn = some y) :
    x.opener = .idle ∧ y = { x with opener := .spawned } := by
  cases WorkerSession.step_move h with
  | spawn ho => exact ⟨ho, rfl⟩

theorem session_skipped {cmd : Command} {p : Payload}
    (h : WorkerSession.step x (.frame cmd p) = none) (hx : x.loop = .idle)
    (hc : cmd.carriesData = true) : x.registered = false := by
  simp only [WorkerSession.step] at h
  split at h
  · cases h
  · rename_i hn
    by_contra hr
    exact hn ⟨by simpa using hr, hx⟩

/-- A session that `openTCP` has not stored has neither sent nor received anything. -/
theorem unstarted (hx : WorkerSession.Inv x) (h : ¬Started x) :
    x = { WorkerSession.fresh with opener := x.opener } := by
  refine hx.storedFirst ?_
  simpa only [Started, not_and_or, not_not] using h

end Session

/-- A session against its link: `sent` is what the link was given, `taken` what the
loop has read. -/
structure Served (id : Id) (x : WorkerSession.Session) (sent taken : List (Frame Id)) : Prop where
  packets : packetsOf id sent = x.emitted
  data : dataOf x.received <+: dataFor id taken
  kept : x.registered = true → dataOf x.received = dataFor id taken
  early : ¬Started x → dataFor id taken = []
  spawned : x.opener ≠ .idle → ∃ payload, ⟨id, .connect, payload⟩ ∈ taken

section Served

variable {id : Id} {x y : WorkerSession.Session} {sent taken : List (Frame Id)} {f : Frame Id}
  {e : WorkerSession.Event}

theorem served_fresh (id : Id) : Served id WorkerSession.fresh [] [] :=
  ⟨rfl, List.prefix_rfl, fun _ => rfl, fun _ => rfl, fun h => absurd rfl h⟩

/-- Frames of others, or without data, do not matter. -/
theorem Served.pass (hs : Served id x sent taken) (hf : dataFor id [f] = []) :
    Served id x sent (taken ++ [f]) := by
  have hsame : dataFor id (taken ++ [f]) = dataFor id taken := by
    rw [dataFor_append, hf, List.append_nil]
  refine ⟨hs.packets, ?_, fun hr => ?_, fun hn => ?_, fun ho => ?_⟩
  · rw [hsame]
    exact hs.data
  · rw [hsame]
    exact hs.kept hr
  · rw [hsame]
    exact hs.early hn
  · obtain ⟨payload, hp⟩ := hs.spawned ho
    exact ⟨payload, List.mem_append_left _ hp⟩

theorem Served.give {o : Option (Frame Id)} (hs : Served id x sent taken)
    (ho : ∀ f ∈ o, f.id ≠ id) : Served id x (sent ++ o.toList) taken := by
  refine ⟨?_, hs.data, hs.kept, hs.early, hs.spawned⟩
  rw [packetsOf_append, hs.packets]
  cases o with
  | none => exact List.append_nil _
  | some f =>
    rw [Option.toList_some, packetsOf_single_other (ho f rfl), List.append_nil]

/-- The session moves on its own. -/
theorem Served.step (hs : Served id x sent taken) (hx : WorkerSession.Inv x)
    (he : ofLink e = false) (h : WorkerSession.step x e = some y) :
    Served id y (sent ++ ((sessionPacket x e).map fun p => ⟨id, p.1, p.2⟩ : Option (Frame Id)).toList)
      taken := by
  have hframe : ∀ cmd p, e ≠ .frame cmd p := by
    rintro cmd p rfl
    cases he
  have hspawn : e ≠ .spawn := by
    rintro rfl
    cases he
  have hrec := session_received h hframe
  refine ⟨?_, ?_, fun hr => ?_, fun hn => ?_, fun ho => hs.spawned (session_opener h hspawn ho)⟩
  · rw [packetsOf_append, hs.packets, session_emitted h]
    cases sessionPacket x e with
    | none => rfl
    | some p => exact congrArg _ (packetsOf_single_self id p.1 p.2)
  · rw [hrec]
    exact hs.data
  · rw [hrec]
    by_cases hst : Started x
    · exact hs.kept (WorkerSession.registered_step hst h hr)
    · rw [hs.early hst, unstarted hx hst]
      rfl
  · exact hs.early fun hst => hn (WorkerSession.started_step hst h)

/-- The connect frame starts the open goroutine. -/
theorem Served.spawn {payload : Payload} (hs : Served id x sent taken) (hx : WorkerSession.Inv x)
    (h : WorkerSession.step x .spawn = some y) :
    Served id y sent (taken ++ [⟨id, .connect, payload⟩]) := by
  obtain ⟨hidle, rfl⟩ := spawn_some h
  have hst : ¬Started x := fun hst => hst.1 hidle
  have hnil : dataFor id (taken ++ [⟨id, .connect, payload⟩]) = [] := by
    rw [dataFor_append, hs.early hst, dataFor_plain id rfl]
    rfl
  have hfresh := unstarted hx hst
  refine ⟨hs.packets, ?_, fun _ => ?_, fun _ => hnil,
    fun _ => ⟨payload, List.mem_append_right _ (List.mem_singleton_self _)⟩⟩
  · rw [hfresh]
    exact List.nil_prefix
  · rw [hfresh, hnil]
    rfl

/-- The loop loads the session for a frame. -/
theorem Served.load (hs : Served f.id x sent taken) (hx : WorkerSession.Inv x)
    (h : WorkerSession.step x (.frame f.cmd f.payload) = some y) :
    Served f.id y sent (taken ++ [f]) := by
  obtain ⟨hreg, -, hy⟩ := WorkerSession.frame_some h
  have hst : Started x := by
    by_contra hst
    rw [unstarted hx hst] at hreg
    cases hreg
  have hsame : y.received = x.received ++ [(f.cmd, f.payload)] ∧ y.opener = x.opener ∧
      y.emitted = x.emitted := by
    rcases hy with ⟨-, rfl⟩ | ⟨-, rfl⟩ <;> exact ⟨rfl, rfl, rfl⟩
  obtain ⟨hrec, hop, hem⟩ := hsame
  have hdata : dataOf y.received = dataFor f.id (taken ++ [f]) := by
    rw [hrec, dataOf_append, hs.kept hreg, dataFor_append]
    exact congrArg _ (dataFor_self f.id f.cmd f.payload).symm
  refine ⟨by rw [hem, hs.packets], hdata ▸ List.prefix_rfl, fun _ => hdata, fun hn => ?_,
    fun ho => ?_⟩
  · exact absurd (WorkerSession.started_step hst h) hn
  · rw [hop] at ho
    obtain ⟨payload, hp⟩ := hs.spawned ho
    exact ⟨payload, List.mem_append_left _ hp⟩

/-- The loop finds no session for a frame; no data comes before `openTCP` has stored it. -/
theorem Served.skip (hs : Served f.id x sent taken) (hidle : x.loop = .idle)
    (hst : f.cmd.carriesData = true → Started x)
    (h : WorkerSession.step x (.frame f.cmd f.payload) = none) :
    Served f.id x sent (taken ++ [f]) := by
  cases hc : f.cmd.carriesData with
  | false => exact hs.pass (dataFor_plain f.id hc)
  | true =>
    refine ⟨hs.packets, hs.data.trans (dataFor_mono f.id (List.prefix_append _ _)), fun hr => ?_,
      fun hn => absurd (hst hc) hn, fun ho => ?_⟩
    · rw [session_skipped h hidle hc] at hr
      cases hr
    · obtain ⟨payload, hp⟩ := hs.spawned ho
      exact ⟨payload, List.mem_append_left _ hp⟩

end Served

/-! ## All workers -/

/-- Everything that holds of the workers' part, whatever the links deliver. -/
structure WorkerSide (udp : Id → Bool) (s : State P W Id) : Prop where
  served : ∀ w id, udp id = false →
    Served id (s.session w id) (s.worker w).send.sent (s.toWorker w).taken
  carry : ∀ w, Carries (fun f => f) (s.worker w).send (s.toBroker w) (s.worker w).writing
  inv : ∀ w id, WorkerSession.Inv (s.session w id)
  busy : ∀ w id, (s.session w id).loop ≠ .idle → (s.worker w).current = some id

section WorkerSide

variable {udp : Id → Bool} {s t : State P W Id} {w : W} {id : Id}

omit [DecidableEq P] [DecidableEq W] in
theorem workerSide_initial (udp : Id → Bool) : WorkerSide udp (initial P W Id) where
  served := fun _ id _ => served_fresh id
  carry := fun _ => carries_empty _ _
  inv := fun _ _ => WorkerSession.inv_fresh
  busy := fun _ _ h => absurd rfl h

/-- What the links of the workers look like after a step that leaves them alone. -/
structure SameWorkers (s t : State P W Id) : Prop where
  session : t.session = s.session
  worker : t.worker = s.worker
  toBroker : ∀ w, (t.toBroker w).sent = (s.toBroker w).sent
  toWorker : ∀ w, (t.toWorker w).taken = (s.toWorker w).taken

omit [DecidableEq P] [DecidableEq W] in
theorem WorkerSide.keep (hs : WorkerSide udp s) (h : SameWorkers s t) : WorkerSide udp t where
  served := fun w id hid => by
    rw [h.session, h.worker, h.toWorker]
    exact hs.served w id hid
  carry := fun w => by
    rw [h.worker]
    exact (hs.carry w).congr rfl (h.toBroker w)
  inv := by
    rw [h.session]
    exact hs.inv
  busy := by
    rw [h.session, h.worker]
    exact hs.busy

/-- The channel of one link is given at most one frame more. -/
structure WorkerGiven (s t : State P W Id) (w : W) (o : Option (Frame Id)) : Prop where
  rest : t = { s with worker := t.worker }
  sent : ∀ v, (t.worker v).send.sent = (s.worker v).send.sent ++ if v = w then o.toList else []
  taken : ∀ v, (t.worker v).send.taken = (s.worker v).send.taken
  writing : ∀ v, (t.worker v).writing = (s.worker v).writing
  current : ∀ v, (t.worker v).current = (s.worker v).current

omit [DecidableEq P] [DecidableEq Id] in
theorem workerSend_some {o : Option (Frame Id)} (h : s.workerSend w o = some t) :
    WorkerGiven s t w o := by
  cases o with
  | none =>
    cases h
    refine ⟨rfl, fun v => ?_, fun _ => rfl, fun _ => rfl, fun _ => rfl⟩
    rw [Option.toList_none, ite_self, List.append_nil]
  | some f =>
    simp only [State.workerSend] at h
    split at h <;> cases h
    refine ⟨rfl, fun v => ?_, fun v => ?_, fun v => ?_, fun v => ?_⟩
    all_goals
      by_cases hv : v = w
      · subst hv
        simp [State.setWorker]
      · simp [State.setWorker, hv]

omit [DecidableEq P] [DecidableEq Id] in
theorem WorkerGiven.carry {o : Option (Frame Id)} (h : WorkerGiven s t w o)
    (hs : ∀ v, Carries (fun f => f) (s.worker v).send (s.toBroker v) (s.worker v).writing) (v : W) :
    Carries (fun f => f) (t.worker v).send (t.toBroker v) (t.worker v).writing := by
  rw [h.writing, show t.toBroker = s.toBroker by rw [h.rest]]
  exact (hs v).congr (h.taken v) rfl

theorem workerSide_udpFrame {f : Frame Id} (hs : WorkerSide udp s)
    (h : step udp s (.udpFrame w f) = some t) : WorkerSide udp t := by
  simp only [step] at h
  split at h
  · rename_i hid
    have hg := workerSend_some h
    have hsession : t.session = s.session := by rw [hg.rest]
    have htaken : t.toWorker = s.toWorker := by rw [hg.rest]
    refine ⟨fun v i hi => ?_, hg.carry hs.carry, ?_, fun v i hl => ?_⟩
    · rw [hsession, htaken, hg.sent]
      split
      · refine (hs.served v i hi).give fun g hg' => ?_
        cases hg'
        rintro rfl
        rw [hid] at hi
        cases hi
      · rw [List.append_nil]
        exact hs.served v i hi
    · rw [hsession]
      exact hs.inv
    · rw [hsession] at hl
      rw [hg.current]
      exact hs.busy v i hl
  · cases h

/-- An event of a session, and what its link is given. -/
theorem session_some {e : WorkerSession.Event} (h : step udp s (.session w id e) = some t) :
    ∃ x, udp id = false ∧ ofLink e = false ∧ WorkerSession.step (s.session w id) e = some x ∧
      WorkerGiven (s.setSession w id x) t w
        ((sessionPacket (s.session w id) e).map fun p => ⟨id, p.1, p.2⟩) := by
  simp only [step] at h
  split at h
  · rename_i hc
    obtain ⟨x, hx, hsend⟩ := Option.bind_eq_some_iff.mp h
    exact ⟨x, hc.1, hc.2.1, hx, workerSend_some hsend⟩
  · cases h

omit [DecidableEq P] in
/-- Every session but the one that moves is where it was. -/
theorem setSession_session (s : State P W Id) (w : W) (id : Id) (x : WorkerSession.Session)
    (v : W) (i : Id) :
    (s.setSession w id x).session v i = if v = w ∧ i = id then x else s.session v i := by
  show Function.update s.session w (Function.update (s.session w) id x) v i = _
  by_cases hv : v = w
  · subst hv
    rw [Function.update_self]
    by_cases hi : i = id
    · rw [hi, Function.update_self, if_pos ⟨rfl, rfl⟩]
    · rw [Function.update_of_ne hi, if_neg fun hc => hi hc.2]
  · rw [Function.update_of_ne hv, if_neg fun hc => hv hc.1]

theorem workerSide_session {e : WorkerSession.Event} (hs : WorkerSide udp s)
    (h : step udp s (.session w id e) = some t) : WorkerSide udp t := by
  obtain ⟨x, hid, he, hx, hg⟩ := session_some h
  have hsession : ∀ v i, t.session v i = if v = w ∧ i = id then x else s.session v i := by
    intro v i
    rw [hg.rest]
    exact setSession_session s w id x v i
  have htaken : t.toWorker = s.toWorker := by rw [hg.rest]; rfl
  refine ⟨fun v i hi => ?_, hg.carry hs.carry, fun v i => ?_, fun v i hl => ?_⟩
  · rw [hsession, htaken, hg.sent]
    have hv := hs.served v i hi
    by_cases hvw : v = w
    · subst hvw
      rw [if_pos rfl]
      by_cases hii : i = id
      · subst hii
        rw [if_pos ⟨rfl, rfl⟩]
        exact hv.step (hs.inv v i) he hx
      · rw [if_neg fun hc => hii hc.2]
        refine hv.give fun f hf => ?_
        obtain ⟨k, -, rfl⟩ := Option.map_eq_some_iff.mp hf
        exact Ne.symm hii
    · rw [if_neg fun hc => hvw hc.1, if_neg hvw, List.append_nil]
      exact hv
  · rw [hsession]
    split
    · exact WorkerSession.inv_step (hs.inv w id) hx
    · exact hs.inv v i
  · rw [hsession] at hl
    rw [hg.current]
    split at hl
    · rename_i hc
      rw [hc.1, hc.2]
      refine hs.busy w id (session_loop hx ?_ hl)
      rintro cmd p rfl
      cases he
    · exact hs.busy v i hl

/-- What the connection loop does with a frame. -/
inductive Dispatched (s : State P W Id) (w : W) (f : Frame Id) (t : State P W Id) : Prop where
  | ignored (hc : f.cmd.carriesData = false) (h : t = s)
  | skipped (hx : WorkerSession.step (s.session w f.id) (.frame f.cmd f.payload) = none) (h : t = s)
  | spawned {x : WorkerSession.Session} (hc : f.cmd = .connect)
      (hx : WorkerSession.step (s.session w f.id) .spawn = some x) (h : t = s.setSession w f.id x)
  | loaded {x : WorkerSession.Session}
      (hx : WorkerSession.step (s.session w f.id) (.frame f.cmd f.payload) = some x)
      (h : t = (s.setSession w f.id x).setWorker w { s.worker w with current := some f.id })

omit [DecidableEq P] in
theorem dispatch_cases {f : Frame Id} (h : s.dispatch w f = some t) : Dispatched s w f t := by
  simp only [State.dispatch] at h
  split at h
  · rename_i hc
    split at h
    · cases h
      exact .ignored (by rw [hc]; rfl) rfl
    · obtain ⟨x, hx, rfl⟩ := Option.map_eq_some_iff.mp h
      exact .spawned hc hx rfl
  · cases h
  · split at h
    · rename_i hx
      cases h
      exact .loaded hx rfl
    · rename_i hx
      cases h
      exact .skipped hx rfl

omit [DecidableEq P] [DecidableEq W] in
/-- While the connection loop reads, no session of its link is being worked on. -/
theorem WorkerSide.idle (hs : WorkerSide udp s) (hready : sessionReady s w = true) (id : Id) :
    (s.session w id).loop = .idle := by
  by_contra hl
  rw [sessionReady, hs.busy w id hl] at hready
  exact hl (by simpa using hready)

omit [DecidableEq P] in
/-- One frame has been read, and at most its own session has moved. -/
theorem WorkerSide.read {f : Frame Id} {d : Fifo (Frame Id)} {x : WorkerSession.Session}
    (hs : WorkerSide udp s) (hp : (s.toWorker w).pop = some (f, d))
    (hsession : ∀ v i, t.session v i = if v = w ∧ i = f.id then x else s.session v i)
    (htaken : t.toWorker = Function.update s.toWorker w d)
    (hgiven : ∀ v, (t.worker v).send = (s.worker v).send ∧ (t.worker v).writing = (s.worker v).writing)
    (hbroker : t.toBroker = s.toBroker)
    (hserved : udp f.id = false → Served f.id x (s.worker w).send.sent ((s.toWorker w).taken ++ [f]))
    (hinv : WorkerSession.Inv x)
    (hbusy : ∀ v i, (t.session v i).loop ≠ .idle → (t.worker v).current = some i) :
    WorkerSide udp t := by
  refine ⟨fun v i hi => ?_, fun v => ?_, fun v i => ?_, hbusy⟩
  · rw [hsession, (hgiven v).1, htaken]
    have hv := hs.served v i hi
    by_cases hvw : v = w
    · subst hvw
      rw [Function.update_self, (Fifo.pop_some hp).2.1]
      by_cases hii : i = f.id
      · subst hii
        rw [if_pos ⟨rfl, rfl⟩]
        exact hserved hi
      · rw [if_neg fun hc => hii hc.2]
        exact hv.pass (dataFor_other (Ne.symm hii))
    · rw [if_neg fun hc => hvw hc.1, Function.update_of_ne hvw]
      exact hv
  · rw [(hgiven v).1, (hgiven v).2, hbroker]
    exact hs.carry v
  · rw [hsession]
    split
    · exact hinv
    · exact hs.inv v i

theorem workerSide_workerRead (hs : WorkerSide udp s)
    (hdata : ∀ f, f ∈ (s.toWorker w).sent → udp f.id = false → f.cmd.carriesData = true →
      Started (s.session w f.id))
    (h : step udp s (.workerRead w) = some t) : WorkerSide udp t := by
  simp only [step] at h
  split at h
  · rename_i hc
    obtain ⟨⟨f, d⟩, hp, ht⟩ := Option.bind_eq_some_iff.mp h
    have hidle := hs.idle hc.2 f.id
    have hsame : ∀ v i, s.session v i = if v = w ∧ i = f.id then s.session w f.id else s.session v i := by
      intro v i
      split
      · rename_i hvi
        rw [hvi.1, hvi.2]
      · rfl
    have hskip : (udp f.id = false →
        Served f.id (s.session w f.id) (s.worker w).send.sent ((s.toWorker w).taken ++ [f])) →
        WorkerSide udp { s with toWorker := Function.update s.toWorker w d } := fun hserved =>
      hs.read hp hsame rfl (fun _ => ⟨rfl, rfl⟩) rfl hserved (hs.inv w f.id) hs.busy
    dsimp only at ht
    split at ht
    · rename_i hid
      cases ht
      refine hskip fun hu => ?_
      rw [hid] at hu
      cases hu
    · rename_i hid
      have hid : udp f.id = false := by simpa using hid
      have hv := hs.served w f.id hid
      have hmem : f ∈ (s.toWorker w).sent := Fifo.mem_of_pop hp
      cases dispatch_cases ht with
      | ignored hc ht =>
        rw [ht]
        exact hskip fun _ => hv.pass (dataFor_plain f.id hc)
      | skipped hx ht =>
        rw [ht]
        exact hskip fun _ => hv.skip hidle (hdata f hmem hid) hx
      | @spawned x hc hx ht =>
        have hx : WorkerSession.step (s.session w f.id) .spawn = some x := hx
        have hsession : ∀ v i, t.session v i = if v = w ∧ i = f.id then x else s.session v i := by
          rw [ht]
          exact setSession_session _ w f.id x
        have hf : f = ⟨f.id, .connect, f.payload⟩ := by rw [← hc]
        refine hs.read hp hsession (by rw [ht]; rfl) (by rw [ht]; exact fun _ => ⟨rfl, rfl⟩)
          (by rw [ht]; rfl) (fun _ => ?_) (WorkerSession.inv_step (hs.inv w f.id) hx)
          fun v i hl => ?_
        · rw [hf]
          exact hv.spawn (hs.inv w f.id) hx
        · rw [hsession] at hl
          split at hl
          · rw [(spawn_some hx).2] at hl
            exact absurd hidle hl
          · rw [ht]
            exact hs.busy v i hl
      | @loaded x hx ht =>
        have hx : WorkerSession.step (s.session w f.id) (.frame f.cmd f.payload) = some x := hx
        have hsession : ∀ v i, t.session v i = if v = w ∧ i = f.id then x else s.session v i := by
          rw [ht]
          exact setSession_session _ w f.id x
        have hworker : ∀ v, t.worker v =
            { s.worker v with current := if v = w then some f.id else (s.worker v).current } := by
          intro v
          rw [ht]
          show Function.update s.worker w _ v = _
          by_cases hvw : v = w
          · subst hvw
            rw [Function.update_self, if_pos rfl]
          · rw [Function.update_of_ne hvw, if_neg hvw]
        refine hs.read hp hsession (by rw [ht]; rfl) (fun v => ?_) (by rw [ht]; rfl)
          (fun _ => hv.load (hs.inv w f.id) hx) (WorkerSession.inv_step (hs.inv w f.id) hx)
          fun v i hl => ?_
        · rw [hworker]
          exact ⟨rfl, rfl⟩
        · rw [hsession] at hl
          rw [hworker]
          by_cases hvw : v = w
          · rw [if_pos hvw]
            by_cases hi : i = f.id
            · rw [hi]
            · rw [if_neg fun hc => hi hc.2, hvw] at hl
              exact absurd (hs.idle hc.2 i) hl
          · rw [if_neg fun hc => hvw hc.1] at hl
            rw [if_neg hvw]
            exact hs.busy v i hl
  · cases h

omit [DecidableEq P] in
/-- A link moves without being given anything and without taking up a frame. -/
theorem WorkerSide.relink {l : WorkerLink Id} (hs : WorkerSide udp s)
    (hw : t.worker = Function.update s.worker w l) (hsent : l.send.sent = (s.worker w).send.sent)
    (hcurrent : l.current = (s.worker w).current) (hsession : t.session = s.session)
    (htaken : t.toWorker = s.toWorker)
    (hcarry : ∀ v, Carries (fun f => f) (t.worker v).send (t.toBroker v) (t.worker v).writing) :
    WorkerSide udp t := by
  refine ⟨fun v i hi => ?_, hcarry, ?_, fun v i hl => ?_⟩
  · have hv := hs.served v i hi
    rw [hsession, htaken, hw]
    by_cases hvw : v = w
    · subst hvw
      rw [Function.update_self, hsent]
      exact hv
    · rw [Function.update_of_ne hvw]
      exact hv
  · rw [hsession]
    exact hs.inv
  · rw [hsession] at hl
    have hcur := hs.busy v i hl
    rw [hw]
    by_cases hvw : v = w
    · rw [hvw] at hcur
      rw [hvw, Function.update_self, hcurrent, hcur]
    · rw [Function.update_of_ne hvw, hcur]

omit [DecidableEq P] in
/-- A link of which neither the channel nor the websocket is touched. -/
theorem WorkerSide.touch {l : WorkerLink Id} (hs : WorkerSide udp s)
    (hsend : l.send = (s.worker w).send) (hwriting : l.writing = (s.worker w).writing)
    (hcurrent : l.current = (s.worker w).current) : WorkerSide udp (s.setWorker w l) := by
  refine hs.relink (w := w) rfl (by rw [hsend]) hcurrent rfl rfl fun v => ?_
  show Carries _ (Function.update s.worker w l v).send (s.toBroker v)
    (Function.update s.worker w l v).writing
  by_cases hvw : v = w
  · rw [hvw, Function.update_self, hsend, hwriting]
    exact hs.carry w
  · rw [Function.update_of_ne hvw]
    exact hs.carry v

/-- `brokerWriter` writes, or fails to. -/
theorem workerWrite_some {ok : Bool} (h : step udp s (.workerWrite w ok) = some t) :
    ∃ f d, (s.worker w).writing = true ∧ (s.worker w).send.pop = some (f, d) ∧
      t = if ok then
          { s.setWorker w { s.worker w with send := d } with
            toBroker := Function.update s.toBroker w ((s.toBroker w).push f) }
        else s.setWorker w { s.worker w with send := d, writing := false, done := true } := by
  simp only [step] at h
  split at h
  · obtain ⟨⟨f, d⟩, hp, ht⟩ := Option.map_eq_some_iff.mp h
    exact ⟨f, d, ‹_›, hp, ht.symm⟩
  · cases h

theorem workerSide_workerWrite {ok : Bool} (hs : WorkerSide udp s)
    (h : step udp s (.workerWrite w ok) = some t) : WorkerSide udp t := by
  obtain ⟨f, d, hw, hp, rfl⟩ := workerWrite_some h
  have hcarry := hs.carry w
  rw [hw] at hcarry
  cases ok with
  | true =>
    refine hs.relink (w := w) rfl (Fifo.pop_some hp).1 rfl rfl rfl fun v => ?_
    show Carries _ (Function.update s.worker w _ v).send
      (Function.update s.toBroker w _ v) (Function.update s.worker w _ v).writing
    by_cases hvw : v = w
    · rw [hvw, Function.update_self, Function.update_self, hw]
      exact hcarry.write hp
    · rw [Function.update_of_ne hvw, Function.update_of_ne hvw]
      exact hs.carry v
  | false =>
    refine hs.relink (w := w) rfl (Fifo.pop_some hp).1 rfl rfl rfl fun v => ?_
    show Carries _ (Function.update s.worker w _ v).send (s.toBroker v)
      (Function.update s.worker w _ v).writing
    by_cases hvw : v = w
    · rw [hvw, Function.update_self]
      exact hcarry.lose hp
    · rw [Function.update_of_ne hvw]
      exact hs.carry v

end WorkerSide

end SplitProxy.Tunnels
