import SplitProxy.SessionTable

/-!
# Dead endpoints in the session table

A cleanup scans the table once. Every session stored before the scan is found;
one stored later is removed only by the `openProxySession` call that stored it,
if that call's select reports the dead worker. Between operations the table is
free of dead endpoints as long as no such call reports success.
-/
namespace SplitProxy.SessionTable

open Runs SyncMap

variable {P W Id : Type} [DecidableEq P] [DecidableEq W] [DecidableEq Id]

/-! ## The two cleanups alike -/

def RemovePc.cleanup : RemovePc P W Id → Cleanup Id (Session P W)
  | .notCalled => ⟨none, none, false⟩
  | .groupLeft => ⟨none, none, false⟩
  | .scanning r => ⟨some r, none, false⟩
  | .notifying r id _ => ⟨some r, some id, false⟩
  | .deleting r id _ => ⟨some r, some id, false⟩
  | .scanned => ⟨none, none, true⟩
  | .finished => ⟨none, none, true⟩

def ClosePc.cleanup : ClosePc P W Id → Cleanup Id (Session P W)
  | .notCalled => ⟨none, none, false⟩
  | .doneClosed => ⟨none, none, false⟩
  | .scanning r => ⟨some r, none, false⟩
  | .deleting r id _ => ⟨some r, some id, false⟩
  | .finished => ⟨none, none, true⟩

omit [DecidableEq P] [DecidableEq W] [DecidableEq Id] in
@[simp] theorem RemovePc.cleanup_mapScan (f : Scan Id (Session P W) → Scan Id (Session P W))
    (pc : RemovePc P W Id) : (pc.mapScan f).cleanup = pc.cleanup.mapScan f := by
  cases pc <;> rfl

omit [DecidableEq P] [DecidableEq W] [DecidableEq Id] in
@[simp] theorem ClosePc.cleanup_mapScan (f : Scan Id (Session P W) → Scan Id (Session P W))
    (pc : ClosePc P W Id) : (pc.mapScan f).cleanup = pc.cleanup.mapScan f := by
  cases pc <;> rfl

variable {id : Id} {x y : Session P W}

/-! ## The invariant -/

/-- The `openProxySession` call that stored `x` has not finished. -/
def Opening (s : State P W Id) (id : Id) (x : Session P W) : Prop :=
  (s.handler x.proxy).opens = some (id, x)

structure Covered (s : State P W Id) : Prop where
  serial : ∀ id x, load s.sessions id = some x → x.serial < s.serial
  removalSince : ∀ w r, (s.removal w).cleanup.sweep = some r → r.since ≤ s.serial
  closeSince : ∀ p r, (s.close p).cleanup.sweep = some r → r.since ≤ s.serial
  removal : ∀ id x, load s.sessions id = some x →
    (s.removal x.worker).cleanup.Allows Session.serial (Opening s id x) id x
  close : ∀ id x, load s.sessions id = some x →
    (s.close x.proxy).cleanup.Allows Session.serial (Opening s id x) id x

omit [DecidableEq P] [DecidableEq W] in
theorem covered_initial : Covered (initial P W Id) where
  serial := fun id x h => by cases h
  removalSince := fun w r h => by cases h
  closeSince := fun p r h => by cases h
  removal := fun id x h => by cases h
  close := fun id x h => by cases h

variable {s t : State P W Id} {p : P} {w : W}

omit [DecidableEq P] [DecidableEq W] in
/-- A step that leaves table and cleanups alone must keep the calls at work. -/
theorem Covered.frame (hi : Covered s) (h : SameTable s t)
    (ho : ∀ id x, load s.sessions id = some x → Opening s id x → Opening t id x) :
    Covered t := by
  refine ⟨?_, ?_, ?_, ?_, ?_⟩
  · rw [h.sessions, h.serial]
    exact hi.serial
  · rw [h.removal, h.serial]
    exact hi.removalSince
  · rw [h.close, h.serial]
    exact hi.closeSince
  · rw [h.sessions, h.removal]
    exact fun id x hl => (hi.removal id x hl).mono (ho id x hl)
  · rw [h.sessions, h.close]
    exact fun id x hl => (hi.close id x hl).mono (ho id x hl)

omit [DecidableEq W] [DecidableEq Id] in
/-- The handler of `p` moves on; it had no call of its own in progress, or still has it. -/
theorem opening_setHandler {pc : HandlerPc P W Id} {s : State P W Id}
    (h : (s.handler p).opens = none ∨ pc.opens = (s.handler p).opens)
    (ho : Opening s id x) : Opening (setHandler s p pc) id x := by
  unfold Opening at ho ⊢
  by_cases hp : x.proxy = p
  · subst hp
    rw [setHandler_handler, Function.update_self]
    rcases h with h | h
    · rw [h] at ho
      cases ho
    · rw [h]
      exact ho
  · rw [setHandler_handler, Function.update_of_ne hp]
    exact ho

/-- Deleting a key keeps every other entry covered. -/
theorem Covered.delete (hi : Covered s) (id : Id) : Covered (delete s id) := by
  refine ⟨?_, ?_, ?_, ?_, ?_⟩
  · intro i y hl
    exact hi.serial i y (load_of_delete hl).2
  · intro w r hr
    simp only [SessionTable.delete, RemovePc.cleanup_mapScan] at hr
    obtain ⟨r, hc, rfl⟩ := Option.map_eq_some_iff.mp hr
    exact hi.removalSince w r hc
  · intro p r hr
    simp only [SessionTable.delete, ClosePc.cleanup_mapScan] at hr
    obtain ⟨r, hc, rfl⟩ := Option.map_eq_some_iff.mp hr
    exact hi.closeSince p r hc
  · intro i y hl
    obtain ⟨hne, hl⟩ := load_of_delete hl
    simp only [SessionTable.delete, RemovePc.cleanup_mapScan]
    exact (hi.removal i y hl).onDelete hne
  · intro i y hl
    obtain ⟨hne, hl⟩ := load_of_delete hl
    simp only [SessionTable.delete, ClosePc.cleanup_mapScan]
    exact (hi.close i y hl).onDelete hne

omit [DecidableEq W] in
/-- Storing a session whose call is at work keeps every entry covered. -/
theorem Covered.store (hi : Covered s) (hn : y.serial = s.serial)
    (hh : (s.handler y.proxy).opens = none) {pc : HandlerPc P W Id}
    (hpc : pc.opens = some (id, y)) :
    Covered (setHandler (store s id y) y.proxy pc) := by
  have hnew : Opening (setHandler (SessionTable.store s id y) y.proxy pc) id y := by
    simp [Opening, hpc]
  have hold : ∀ {i z}, Opening s i z →
      Opening (setHandler (SessionTable.store s id y) y.proxy pc) i z :=
    fun ho => @opening_setHandler _ _ _ _ _ _ _ pc (SessionTable.store s id y) (Or.inl hh) ho
  refine ⟨?_, ?_, ?_, ?_, ?_⟩
  · intro i z hl
    rcases load_of_store hl with ⟨rfl, rfl⟩ | ⟨hne, hl⟩
    · simp only [setHandler, SessionTable.store]
      omega
    · have hlt := hi.serial i z hl
      simp only [setHandler, SessionTable.store]
      omega
  · intro w r hr
    simp only [setHandler, SessionTable.store, RemovePc.cleanup_mapScan] at hr ⊢
    obtain ⟨r, hc, rfl⟩ := Option.map_eq_some_iff.mp hr
    exact Nat.le_succ_of_le (hi.removalSince w r hc)
  · intro p r hr
    simp only [setHandler, SessionTable.store, ClosePc.cleanup_mapScan] at hr ⊢
    obtain ⟨r, hc, rfl⟩ := Option.map_eq_some_iff.mp hr
    exact Nat.le_succ_of_le (hi.closeSince p r hc)
  · intro i z hl
    have hc : ((setHandler (SessionTable.store s id y) y.proxy pc).removal z.worker).cleanup =
        (s.removal z.worker).cleanup.mapScan (·.onStore id y) := 
      RemovePc.cleanup_mapScan (fun d => d.onStore id y) (s.removal z.worker)
    rw [hc]
    rcases load_of_store hl with ⟨rfl, rfl⟩ | ⟨hne, hl⟩
    · exact Cleanup.Allows.of_new (fun r hr => hn ▸ hi.removalSince _ r hr) hnew
    · exact ((hi.removal i z hl).onStore hne).mono hold
  · intro i z hl
    have hc : ((setHandler (SessionTable.store s id y) y.proxy pc).close z.proxy).cleanup =
        (s.close z.proxy).cleanup.mapScan (·.onStore id y) := 
      ClosePc.cleanup_mapScan (fun d => d.onStore id y) (s.close z.proxy)
    rw [hc]
    rcases load_of_store hl with ⟨rfl, rfl⟩ | ⟨hne, hl⟩
    · exact Cleanup.Allows.of_new (fun r hr => hn ▸ hi.closeSince _ r hr) hnew
    · exact ((hi.close i z hl).onStore hne).mono hold

omit [DecidableEq P] in
/-- `removeWorker` on `w` moves on. -/
theorem Covered.setRemoval (hi : Covered s) {pc : RemovePc P W Id}
    (hs : ∀ r, pc.cleanup.sweep = some r → r.since ≤ s.serial)
    (ha : ∀ id x, load s.sessions id = some x → x.worker = w →
      pc.cleanup.Allows Session.serial (Opening s id x) id x) : Covered (setRemoval s w pc) := by
  refine ⟨hi.serial, ?_, hi.closeSince, ?_, hi.close⟩
  · intro v r hr
    by_cases hv : v = w
    · subst hv
      simp only [SessionTable.setRemoval, Function.update_self] at hr
      exact hs r hr
    · simp only [SessionTable.setRemoval, Function.update_of_ne hv] at hr
      exact hi.removalSince v r hr
  · intro id x hl
    by_cases hv : x.worker = w
    · simp only [SessionTable.setRemoval, hv, Function.update_self]
      exact ha id x hl hv
    · simp only [SessionTable.setRemoval, Function.update_of_ne hv]
      exact hi.removal id x hl

omit [DecidableEq W] in
/-- `ProxyConnection.close` on `p` moves on. -/
theorem Covered.setClose (hi : Covered s) {pc : ClosePc P W Id}
    (hs : ∀ r, pc.cleanup.sweep = some r → r.since ≤ s.serial)
    (ha : ∀ id x, load s.sessions id = some x → x.proxy = p →
      pc.cleanup.Allows Session.serial (Opening s id x) id x) : Covered (setClose s p pc) := by
  refine ⟨hi.serial, hi.removalSince, ?_, hi.removal, ?_⟩
  · intro q r hr
    by_cases hq : q = p
    · subst hq
      simp only [SessionTable.setClose, Function.update_self] at hr
      exact hs r hr
    · simp only [SessionTable.setClose, Function.update_of_ne hq] at hr
      exact hi.closeSince q r hr
  · intro id x hl
    by_cases hq : x.proxy = p
    · simp only [SessionTable.setClose, hq, Function.update_self]
      exact ha id x hl hq
    · simp only [SessionTable.setClose, Function.update_of_ne hq]
      exact hi.close id x hl

omit [DecidableEq W] in
/-- The handler of `p` moves on without touching the table. -/
theorem Covered.handler (hi : Covered s) {pc : HandlerPc P W Id} (hu : SameTable s t)
    (he : t.handler = s.handler)
    (h : (s.handler p).opens = none ∨ pc.opens = (s.handler p).opens) :
    Covered (setHandler t p pc) := by
  have hu' : SameTable s (setHandler t p pc) := ⟨hu.sessions, hu.serial, hu.close, hu.removal⟩
  refine hi.frame hu' fun id x _ ho => ?_
  refine opening_setHandler (by rw [he]; exact h) ?_
  unfold Opening at ho ⊢
  rw [he]
  exact ho

/-! ## What the code has to notice -/

/-- No session is established behind a sweep's back: the connect frame is not
sent for an entry whose worker, or proxy, has been swept already, and when a
sweep ends every entry stored after it began still has its call at work. -/
def Noticed (s : State P W Id) : Event P W Id → Prop
  | .handler p .connectSent =>
    ∀ id x target, s.handler p = .connecting id x target → load s.sessions id = some x →
      (s.removal x.worker).cleanup.swept = false ∧ (s.close x.proxy).cleanup.swept = false
  | .removal w .rangeEnd =>
    ∀ r id x, s.removal w = .scanning r → load s.sessions id = some x → x.worker = w →
      r.since ≤ x.serial → Opening s id x
  | .close p .rangeEnd =>
    ∀ r id x, s.close p = .scanning r → load s.sessions id = some x → x.proxy = p →
      r.since ≤ x.serial → Opening s id x
  | _ => True

theorem covered_connectSent {u : State P W Id} {target : Payload} (hi : Covered s)
    (hC : Noticed s (.handler p .connectSent)) (hp : s.handler p = .connecting id x target)
    (hu : sendWorker s id x x.mode.connectCommand target = some u) :
    Covered { setHandler u p .reading with connects := (id, x) :: u.connects } := by
  have hsame := SameTable.of_sendWorker hu
  have hc := hC id x target hp
  have hhand : u.handler = s.handler := by rw [(sendWorker_some hu).1]
  -- only the session just announced loses the call that explains it
  have hkeep : ∀ i z, ¬(load s.sessions id = some x ∧ i = id ∧ z = x) →
      load s.sessions i = some z → Opening s i z →
      Opening (setHandler u p .reading) i z := by
    intro i z hne hl ho
    unfold Opening at ho ⊢
    by_cases hz : z.proxy = p
    · rw [hz, hp] at ho
      cases ho
      exact absurd ⟨hl, rfl, rfl⟩ hne
    · rw [setHandler_handler, Function.update_of_ne hz, hhand]
      exact ho
  refine ⟨?_, ?_, ?_, ?_, ?_⟩
  · simp only [setHandler, hsame.sessions, hsame.serial]
    exact hi.serial
  · simp only [setHandler, hsame.removal, hsame.serial]
    exact hi.removalSince
  · simp only [setHandler, hsame.close, hsame.serial]
    exact hi.closeSince
  · intro i z hl
    simp only [setHandler, hsame.sessions] at hl
    have ha := hi.removal i z hl
    simp only [setHandler, hsame.removal]
    refine ⟨ha.sweep, fun hv => ?_⟩
    by_cases hx : load s.sessions id = some x ∧ i = id ∧ z = x
    · obtain ⟨hx, rfl, rfl⟩ := hx
      rw [(hc hx).1] at hv
      cases hv
    · exact hkeep i z hx hl (ha.swept hv)
  · intro i z hl
    simp only [setHandler, hsame.sessions] at hl
    have ha := hi.close i z hl
    simp only [setHandler, hsame.close]
    refine ⟨ha.sweep, fun hv => ?_⟩
    by_cases hx : load s.sessions id = some x ∧ i = id ∧ z = x
    · obtain ⟨hx, rfl, rfl⟩ := hx
      rw [(hc hx).2] at hv
      cases hv
    · exact hkeep i z hx hl (ha.swept hv)

theorem covered_handler {e : HandlerEvent W Id} (hi : Covered s)
    (hC : Noticed s (.handler p e)) (h : handlerStep s p e = some t) : Covered t := by
  cases handlerStep_move h with
  | connectSent hp hu => exact covered_connectSent hi hC hp hu
  | known | ignored => exact hi
  | checked hp | selected hp | noWorkers hp | data hp | dataAborted hp | closeAborted hp
  | readFailed hp => exact hi.handler (.refl s) rfl (Or.inl (by rw [hp]; rfl))
  | store hp => exact hi.store rfl (by rw [hp]; rfl) rfl
  | connectAborted hp => exact hi.handler (.refl s) rfl (Or.inr (by rw [hp]; rfl))
  | @connectDelete id _ _ hp =>
    refine (hi.delete id).frame (sameTable_setHandler _ _ _) fun i z hl ho => ?_
    unfold Opening at ho ⊢
    by_cases hz : z.proxy = p
    · rw [hz, show (delete s id).handler = s.handler from rfl, hp] at ho
      cases ho
      exact absurd rfl (load_of_delete hl).1
    · rw [setHandler_handler, Function.update_of_ne hz]
      exact ho
  | @close id _ x hp =>
    have hs : SameTable s { s with proxyEnds := (id, x) :: s.proxyEnds } := ⟨rfl, rfl, rfl, rfl⟩
    exact hi.handler hs rfl (Or.inl (by rw [hp]; rfl))
  | reported hp hu | refused hp hu =>
    exact hi.handler (.of_writeProxy hu) (by rw [(writeProxy_some hu).1]) (Or.inl (by rw [hp]; rfl))
  | dataSent hp hu | closeSent hp hu =>
    exact hi.handler (.of_sendWorker hu) (by rw [(sendWorker_some hu).1]) (Or.inl (by rw [hp]; rfl))
  | dataDelete hp | closeDelete hp =>
    exact (hi.delete _).handler (.refl _) rfl
      (Or.inl (by rw [show (delete s _).handler = s.handler from rfl, hp]; rfl))

theorem covered_removal {e : RemoveEvent P W Id} (hi : Covered s)
    (hC : Noticed s (.removal w e)) (h : removeStep s w e = some t) : Covered t := by
  have hother : ∀ {pc}, s.removal w = pc → ∀ id x, load s.sessions id = some x → x.worker = w →
      pc.cleanup.Allows Session.serial (Opening s id x) id x := by
    intro pc hp id x hl hx
    have ha := hi.removal id x hl
    rw [hx, hp] at ha
    exact ha
  have hsince : ∀ {pc r}, s.removal w = pc → pc.cleanup.sweep = some r → r.since ≤ s.serial :=
    fun hp hr => hi.removalSince w _ (by rw [hp]; exact hr)
  cases removeStep_move h with
  | begin => exact hi.setRemoval nofun fun id x _ _ => ⟨nofun, nofun⟩
  | rangeStart =>
    refine hi.setRemoval ?_ fun id x hl _ => .start hl
    intro r hr
    cases hr
    exact Nat.le_refl _
  | @found r d _ _ hp hv =>
    have hle := hsince hp rfl
    refine hi.setRemoval ?_ fun id x hl hx => (hother hp id x hl hx).visit hv
    intro r' hr'
    cases hr'
    exact hle
  | @passed r d _ _ hp hv hy =>
    have hle := hsince hp rfl
    refine hi.setRemoval ?_ fun id x hl hx => (hother hp id x hl hx).skip hv hl ?_
    · intro r' hr'
      cases hr'
      exact hle
    · intro hc
      rw [hc] at hy
      exact hy hx
  | @notified r i y _ u hp hu =>
    have hw := (writeProxy_some hu).1
    have hiu : Covered u := hi.frame (.of_writeProxy hu) fun id x _ ho => by
      rw [hw]
      exact ho
    have hru : u.removal w = .notifying r i y := by rw [hw]; exact hp
    refine hiu.setRemoval ?_ fun id x hl hx => ?_
    · intro r' hr'
      exact hiu.removalSince w r' (by rw [hru]; exact hr')
    · have ha := hiu.removal id x hl
      rw [hx, hru] at ha
      exact ha
  | @delete r i _ hp =>
    refine (hi.delete i).setRemoval ?_ fun id x hl hx => ?_
    · intro r' hr'
      cases hr'
      exact @hsince _ r hp rfl
    · obtain ⟨hne, hl⟩ := load_of_delete hl
      exact (hother hp id x hl hx).deleted hne
  | @rangeEnd r hp hend =>
    exact hi.setRemoval nofun fun id x hl hx =>
      ⟨nofun, fun _ => (hother hp id x hl hx).ended hend (hC r id x hp hl hx)⟩
  | closeDone hp =>
    exact hi.setRemoval nofun fun id x hl hx => ⟨nofun, (hother hp id x hl hx).swept⟩

theorem covered_close {e : CloseEvent P W Id} (hi : Covered s)
    (hC : Noticed s (.close p e)) (h : closeStep s p e = some t) : Covered t := by
  have hother : ∀ {pc}, s.close p = pc → ∀ id x, load s.sessions id = some x → x.proxy = p →
      pc.cleanup.Allows Session.serial (Opening s id x) id x := by
    intro pc hp id x hl hx
    have ha := hi.close id x hl
    rw [hx, hp] at ha
    exact ha
  have hsince : ∀ {pc r}, s.close p = pc → pc.cleanup.sweep = some r → r.since ≤ s.serial :=
    fun hp hr => hi.closeSince p _ (by rw [hp]; exact hr)
  cases closeStep_move h with
  | begin => exact hi.setClose nofun fun id x _ _ => ⟨nofun, nofun⟩
  | rangeStart =>
    refine hi.setClose ?_ fun id x hl _ => .start hl
    intro r hr
    cases hr
    exact Nat.le_refl _
  | @found r d i y hp hv =>
    have hle := hsince hp rfl
    have hi' : Covered { s with senders := (i, y) :: s.senders } :=
      hi.frame ⟨rfl, rfl, rfl, rfl⟩ fun _ _ _ ho => ho
    refine hi'.setClose ?_ fun id x hl hx => (hother hp id x hl hx).visit hv
    intro r' hr'
    cases hr'
    exact hle
  | @passed r d _ _ hp hv hy =>
    have hle := hsince hp rfl
    refine hi.setClose ?_ fun id x hl hx => (hother hp id x hl hx).skip hv hl ?_
    · intro r' hr'
      cases hr'
      exact hle
    · intro hc
      rw [hc] at hy
      exact hy hx
  | @delete r i _ hp =>
    refine (hi.delete i).setClose ?_ fun id x hl hx => ?_
    · intro r' hr'
      cases hr'
      exact @hsince _ r hp rfl
    · obtain ⟨hne, hl⟩ := load_of_delete hl
      exact (hother hp id x hl hx).deleted hne
  | @rangeEnd r hp hend =>
    exact hi.setClose nofun fun id x hl hx =>
      ⟨nofun, fun _ => (hother hp id x hl hx).ended hend (hC r id x hp hl hx)⟩

theorem covered_reader {e : ReaderEvent Id} (hi : Covered s) (h : readerStep s w e = some t) :
    Covered t := by
  have hquiet : ∀ {u v : State P W Id}, Covered u → SameTable u v → v.handler = u.handler →
      Covered v := fun hu hv he => hu.frame hv fun id x _ ho => by
    unfold Opening at ho ⊢
    rw [he]
    exact ho
  cases readerStep_move h with
  | ignored => exact hi
  | frame | close => exact hquiet hi ⟨rfl, rfl, rfl, rfl⟩ rfl
  | forwarded _ hu =>
    have hs := SameTable.of_writeProxy hu
    exact hquiet hi ⟨hs.sessions, hs.serial, hs.close, hs.removal⟩ (by rw [(writeProxy_some hu).1]; rfl)
  | failDelete => exact hquiet (hi.delete _) ⟨rfl, rfl, rfl, rfl⟩ rfl
  | closeForwarded _ hu =>
    have hs := SameTable.of_writeProxy hu
    exact hquiet hi ⟨hs.sessions, hs.serial, hs.close, hs.removal⟩ (by rw [(writeProxy_some hu).1]; rfl)
  | closeDelete => exact hquiet (hi.delete _) ⟨rfl, rfl, rfl, rfl⟩ rfl
  | readFailed => exact hquiet hi ⟨rfl, rfl, rfl, rfl⟩ rfl

theorem covered_step {e : Event P W Id} (hi : Covered s) (hC : Noticed s e)
    (h : step s e = some t) : Covered t := by
  cases e with
  | handler p e => exact covered_handler hi hC h
  | close p e => exact covered_close hi hC h
  | removal w e => exact covered_removal hi hC h
  | reader w e => exact covered_reader hi h
  | senderSent id x =>
    simp only [step] at h
    split at h
    · obtain ⟨u, hu, rfl⟩ := Option.map_eq_some_iff.mp h
      rw [(sendWorker_some hu).1]
      exact hi.frame ⟨rfl, rfl, rfl, rfl⟩ fun _ _ _ ho => ho
    · cases h
  | senderAborted id x err =>
    simp only [step] at h
    split at h <;> cases h
    exact hi.frame ⟨rfl, rfl, rfl, rfl⟩ fun _ _ _ ho => ho
  | workerWriter w =>
    simp only [step] at h
    obtain ⟨r, hr, rfl⟩ := Option.map_eq_some_iff.mp h
    exact hi.frame ⟨rfl, rfl, rfl, rfl⟩ fun _ _ _ ho => ho
  | proxyWriter p =>
    simp only [step] at h
    obtain ⟨r, hr, rfl⟩ := Option.map_eq_some_iff.mp h
    exact hi.frame ⟨rfl, rfl, rfl, rfl⟩ fun _ _ _ ho => ho

/-! ## Quiet states -/

/-- No operation on the table is in progress. -/
structure Quiet (s : State P W Id) : Prop where
  handler : ∀ p, s.handler p = .reading ∨ s.handler p = .returned
  close : ∀ p, s.close p = .notCalled ∨ s.close p = .finished
  removal : ∀ w, s.removal w = .notCalled ∨ s.removal w = .finished
  reader : ∀ w, s.reader w = .reading ∨ s.reader w = .returned

/-- Every session in the table has two open endpoints. -/
def EndpointsOpen (s : State P W Id) : Prop :=
  ∀ id x, load s.sessions id = some x → proxyDone s x.proxy = false ∧ workerDone s x.worker = false

theorem Covered.endpointsOpen (hi : Covered s) (hq : Quiet s) : EndpointsOpen s := by
  intro id x hl
  have hno : ¬Opening s id x := by
    unfold Opening
    rcases hq.handler x.proxy with h | h <;> rw [h] <;> exact nofun
  constructor
  · rcases hq.close x.proxy with h | h
    · simp [proxyDone, h]
    · have ha := hi.close id x hl
      rw [h] at ha
      exact absurd (ha.swept rfl) hno
  · rcases hq.removal x.worker with h | h
    · simp [workerDone, h]
    · have ha := hi.removal id x hl
      rw [h] at ha
      exact absurd (ha.swept rfl) hno

/-- Whenever no operation is in progress, the table holds no dead endpoint, in
every run that never establishes a session behind a sweep's back. -/
theorem endpoints_open_of_noticed {es : List (Event P W Id)}
    (h : Meets step Noticed (initial P W Id) es) :
    Always step (fun s => Quiet s → EndpointsOpen s) (initial P W Id) es :=
  always_of_invariant (fun _ _ _ hi hC hs => covered_step hi hC hs)
    (fun _ hi hq => hi.endpointsOpen hq) covered_initial h

/-- A session opened and swept up with its worker. -/
def sweptRun : List (Event Nat Nat Nat) :=
  [.handler 0 (.openRequest ⟨0, .tcp, [], []⟩), .handler 0 (.getWorker (some 0)),
   .handler 0 .store, .handler 0 .connectSent, .removal 0 .begin, .removal 0 .rangeStart,
   .removal 0 (.visit 0 ⟨0, 0, .tcp, 0⟩), .removal 0 (.notified true), .removal 0 .delete,
   .removal 0 .rangeEnd, .removal 0 .closeDone]

/-- The worker is swept between `getWorker` and the store, and its `done` closes
only after the select has sent the connect frame. -/
def missedRun : List (Event Nat Nat Nat) :=
  [.handler 0 (.openRequest ⟨0, .tcp, [], []⟩), .handler 0 (.getWorker (some 0)),
   .removal 0 .begin, .removal 0 .rangeStart, .removal 0 .rangeEnd, .handler 0 .store,
   .handler 0 .connectSent, .removal 0 .closeDone]

theorem endpoints_open_swept :
    Always step (fun s => Quiet s → EndpointsOpen s) (initial Nat Nat Nat) sweptRun := by
  refine endpoints_open_of_noticed ?_
  have hT : ∀ {s : State Nat Nat Nat} {e}, Noticed s e = True → Noticed s e := fun h => h ▸ trivial
  refine meets_step (hT rfl) rfl (meets_step (hT rfl) rfl (meets_step (hT rfl) rfl ?_))
  refine meets_step ?_ rfl (meets_step (hT rfl) rfl (meets_step (hT rfl) rfl ?_))
  · intro id x target hp _
    cases hp
    exact ⟨rfl, rfl⟩
  refine meets_step (hT rfl) rfl (meets_step (hT rfl) rfl (meets_step (hT rfl) rfl ?_))
  refine meets_step ?_ rfl (meets_step (hT rfl) rfl (meets_nil _))
  intro r id x _ hl
  cases hl

theorem dead_endpoint_kept :
    ∃ s, run step (initial Nat Nat Nat) missedRun = some s ∧ Quiet s ∧ ¬EndpointsOpen s := by
  refine ⟨_, rfl, ⟨fun p => Or.inl ?_, fun p => Or.inl rfl, fun w => ?_, fun w => Or.inl rfl⟩, ?_⟩
  · cases p with
    | zero => rfl
    | succ p => rfl
  · cases w with
    | zero => exact Or.inr rfl
    | succ w => exact Or.inl rfl
  · intro h
    have hw := (h 0 ⟨0, 0, .tcp, 0⟩ rfl).2
    cases hw

end SplitProxy.SessionTable
