import SplitProxy.SessionTable

/-!
# Half-closed sessions at the broker

A session that leaves the table after its connect frame went out must not
survive at either endpoint: each has to have ended it itself, or to be down, or
to be told. Three things can break that: a send that times out, a reader that
deletes a session because the proxy is gone before the proxy's own cleanup has
seen it, and a delete that hits another session stored under the same id.
-/
namespace SplitProxy.SessionTable

open Runs SyncMap

variable {P W Id : Type} [DecidableEq P] [DecidableEq W] [DecidableEq Id]

/-! ## Who has been told -/

/-- The worker's link is down, or it sent `CmdClose` itself. -/
def WorkerKnows (s : State P W Id) (id : Id) (x : Session P W) : Prop :=
  s.removal x.worker ≠ .notCalled ∨ (id, x) ∈ s.workerEnds

/-- A `CmdClose` for the session is in the worker's channel. -/
def WorkerSentClose (s : State P W Id) (id : Id) (x : Session P W) : Prop :=
  ⟨some x, ⟨id, .close, []⟩⟩ ∈ (s.toWorker x.worker).sent

/-- An operation in progress is about to put it there. -/
def WorkerWillBeTold (s : State P W Id) (id : Id) (x : Session P W) : Prop :=
  (id, x) ∈ s.senders ∨ s.handler x.proxy = .sendingClose id x

def WorkerTold (s : State P W Id) (id : Id) (x : Session P W) : Prop :=
  WorkerKnows s id x ∨ WorkerSentClose s id x ∨ WorkerWillBeTold s id x

/-- The proxy's link is down, or it sent `CmdClose` itself. -/
def ProxyKnows (s : State P W Id) (id : Id) (x : Session P W) : Prop :=
  s.close x.proxy ≠ .notCalled ∨ (id, x) ∈ s.proxyEnds

/-- A `CmdClose` or `CmdError` for the session is in the proxy's channel. -/
def ProxySentEnd (s : State P W Id) (id : Id) (x : Session P W) : Prop :=
  ∃ cmd payload, (cmd = .close ∨ cmd = .error) ∧
    ⟨some x, ⟨id, cmd, payload⟩⟩ ∈ (s.toProxy x.proxy).sent

def ProxyWillBeTold (s : State P W Id) (id : Id) (x : Session P W) : Prop :=
  s.handler x.proxy = .refusing id x ∨
  (∃ err, s.handler x.proxy = .reporting id (some x) err) ∨
  (∃ payload, s.reader x.worker = .forwardingClose id x payload) ∨
  (∃ r, s.removal x.worker = .notifying r id x)

def ProxyTold (s : State P W Id) (id : Id) (x : Session P W) : Prop :=
  ProxyKnows s id x ∨ ProxySentEnd s id x ∨ ProxyWillBeTold s id x

/-- Neither endpoint keeps a session the broker has forgotten. -/
def NoneHalfClosed (s : State P W Id) : Prop :=
  ∀ id x, (id, x) ∈ s.deleted → WorkerTold s id x ∧ ProxyTold s id x

/-! ## What has to be avoided -/

/-- The delete an operation on `x` makes hits no other session. -/
def OwnEntry (s : State P W Id) (id : Id) (x : Session P W) : Prop :=
  ∀ y, load s.sessions id = some y → y = x

/-- The worker does not depend on this operation to learn of the end. -/
def WorkerSafe (s : State P W Id) (id : Id) (x : Session P W) : Prop :=
  load s.sessions id ≠ some x ∨ WorkerKnows s id x

/-- No send of data or close times out, and no reader deletes a session it could
not forward a frame of, while the worker depends on being told; and no delete
hits another session than the one its operation is about. -/
def Accounted (s : State P W Id) : Event P W Id → Prop
  | .handler p (.dataAborted .workerSendTimeout) =>
    ∀ id x cmd payload, s.handler p = .sending id x cmd payload → WorkerSafe s id x
  | .handler p (.closeAborted .workerSendTimeout) =>
    ∀ id x, s.handler p = .sendingClose id x → WorkerSafe s id x
  | .senderAborted id x .workerSendTimeout => WorkerKnows s id x
  | .reader w .failDelete =>
    ∀ id x, s.reader w = .writeFailed id x → WorkerSafe s id x ∧ OwnEntry s id x
  | .handler p .connectDelete =>
    ∀ id x err, s.handler p = .connectFailed id x err → OwnEntry s id x
  | .handler p .dataDelete => ∀ id x err, s.handler p = .sendFailed id x err → OwnEntry s id x
  | .handler p .closeDelete => ∀ id x, s.handler p = .closing id x → OwnEntry s id x
  | .close p .delete => ∀ r id x, s.close p = .deleting r id x → OwnEntry s id x
  | .removal w .delete => ∀ r id x, s.removal w = .deleting r id x → OwnEntry s id x
  | .reader w .closeDelete => ∀ id x, s.reader w = .closing id x → OwnEntry s id x
  | _ => True

/-! ## Facts no step takes back -/

/-- The worker is told, whatever becomes of the handler. -/
def WorkerInformed (s : State P W Id) (id : Id) (x : Session P W) : Prop :=
  WorkerKnows s id x ∨ WorkerSentClose s id x ∨ (id, x) ∈ s.senders

def ProxyInformed (s : State P W Id) (id : Id) (x : Session P W) : Prop :=
  ProxyKnows s id x ∨ ProxySentEnd s id x ∨ s.handler x.proxy = .refusing id x

structure Grows (s t : State P W Id) : Prop where
  worker : ∀ id x, WorkerInformed s id x → WorkerInformed t id x
  proxy : ∀ id x, ProxyInformed s id x → ProxyInformed t id x
  proxyDown : ∀ p, s.close p ≠ .notCalled → t.close p ≠ .notCalled
  proxySent : ∀ id x, ProxySentEnd s id x → ProxySentEnd t id x
  proxyEnds : ∀ e, e ∈ s.proxyEnds → e ∈ t.proxyEnds
  workerEnds : ∀ e, e ∈ s.workerEnds → e ∈ t.workerEnds
  serial : s.serial ≤ t.serial
  table : ∀ id x, x.serial < s.serial → load t.sessions id = some x → load s.sessions id = some x

variable {s t u : State P W Id} {id : Id} {x y : Session P W} {p : P} {w : W}

omit [DecidableEq P] [DecidableEq W] in
theorem Grows.refl (s : State P W Id) : Grows s s :=
  ⟨fun _ _ h => h, fun _ _ h => h, fun _ h => h, fun _ _ h => h, fun _ h => h, fun _ h => h,
    Nat.le_refl _, fun _ _ _ h => h⟩

omit [DecidableEq P] [DecidableEq W] in
theorem Grows.trans (h : Grows s t) (h' : Grows t u) : Grows s u where
  worker := fun id x hw => h'.worker id x (h.worker id x hw)
  proxy := fun id x hp => h'.proxy id x (h.proxy id x hp)
  proxyDown := fun p hp => h'.proxyDown p (h.proxyDown p hp)
  proxySent := fun id x hp => h'.proxySent id x (h.proxySent id x hp)
  proxyEnds := fun e he => h'.proxyEnds e (h.proxyEnds e he)
  workerEnds := fun e he => h'.workerEnds e (h.workerEnds e he)
  serial := Nat.le_trans h.serial h'.serial
  table := fun id x hx hl => h.table id x hx (h'.table id x (Nat.lt_of_lt_of_le hx h.serial) hl)

omit [DecidableEq P] in
theorem Grows.sendWorker {cmd : Command} {payload : Payload}
    (h : sendWorker s id x cmd payload = some t) : Grows s t := by
  obtain ⟨ht, -, hkeep⟩ := sendWorker_some h
  rw [ht]
  refine ⟨fun i z hw => ?_, fun _ _ h => h, fun _ h => h, fun _ _ h => h, fun _ h => h,
    fun _ h => h, Nat.le_refl _, fun _ _ _ h => h⟩
  rcases hw with hw | hw | hw
  · exact Or.inl hw
  · exact Or.inr (Or.inl (hkeep _ _ hw))
  · exact Or.inr (Or.inr hw)

theorem Grows.writeProxy {o : Option (Session P W)} {f : Frame Id} {ok : Bool}
    (h : writeProxy s p o f ok = some t) : Grows s t := by
  obtain ⟨ht, -, -, hkeep⟩ := writeProxy_some h
  have hsent : ∀ i z, ProxySentEnd s i z → ProxySentEnd t i z := by
    rintro i z ⟨cmd, payload, hc, hm⟩
    exact ⟨cmd, payload, hc, hkeep _ _ hm⟩
  rw [ht] at hsent ⊢
  refine ⟨fun _ _ h => h, fun i z hp => ?_, fun _ h => h, hsent, fun _ h => h, fun _ h => h,
    Nat.le_refl _, fun _ _ _ h => h⟩
  rcases hp with hp | hp | hp
  · exact Or.inl hp
  · exact Or.inr (Or.inl (hsent i z hp))
  · exact Or.inr (Or.inr hp)

omit [DecidableEq W] in
/-- A handler may leave `refusing` only when the proxy has got its frame. -/
theorem Grows.setHandler {pc : HandlerPc P W Id}
    (h : ∀ id x, s.handler p = .refusing id x → x.proxy = p →
      ProxyKnows s id x ∨ ProxySentEnd s id x) : Grows s (setHandler s p pc) := by
  refine ⟨fun _ _ h => h, fun i z hp => ?_, fun _ h => h, fun _ _ h => h, fun _ h => h,
    fun _ h => h, Nat.le_refl _, fun _ _ _ h => h⟩
  rcases hp with hp | hp | hp
  · exact Or.inl hp
  · exact Or.inr (Or.inl hp)
  · by_cases hz : z.proxy = p
    · rw [hz] at hp
      rcases h i z hp hz with hk | hk
      · exact Or.inl hk
      · exact Or.inr (Or.inl hk)
    · refine Or.inr (Or.inr ?_)
      rw [setHandler_handler, Function.update_of_ne hz]
      exact hp

omit [DecidableEq P] in
theorem Grows.setReader (s : State P W Id) (w : W) (pc : ReaderPc P W Id) :
    Grows s (setReader s w pc) :=
  ⟨fun _ _ h => h, fun _ _ h => h, fun _ h => h, fun _ _ h => h, fun _ h => h, fun _ h => h,
    Nat.le_refl _, fun _ _ _ h => h⟩

omit [DecidableEq P] in
theorem Grows.setRemoval {pc : RemovePc P W Id} (hpc : pc ≠ .notCalled) :
    Grows s (setRemoval s w pc) := by
  have hdown : ∀ v, s.removal v ≠ .notCalled → (SessionTable.setRemoval s w pc).removal v ≠ .notCalled := by
    intro v hv
    by_cases hw : v = w
    · simpa [SessionTable.setRemoval, hw] using hpc
    · simpa [SessionTable.setRemoval, hw] using hv
  refine ⟨fun i z hi => ?_, fun _ _ h => h, fun _ h => h, fun _ _ h => h, fun _ h => h,
    fun _ h => h, Nat.le_refl _, fun _ _ _ h => h⟩
  rcases hi with (hi | hi) | hi
  · exact Or.inl (Or.inl (hdown _ hi))
  · exact Or.inl (Or.inr hi)
  · exact Or.inr hi

omit [DecidableEq W] in
theorem Grows.setClose {pc : ClosePc P W Id} (hpc : pc ≠ .notCalled) :
    Grows s (setClose s p pc) := by
  have hdown : ∀ q, s.close q ≠ .notCalled → (SessionTable.setClose s p pc).close q ≠ .notCalled := by
    intro q hq
    by_cases hp : q = p
    · simpa [SessionTable.setClose, hp] using hpc
    · simpa [SessionTable.setClose, hp] using hq
  refine ⟨fun _ _ h => h, fun i z hi => ?_, hdown, fun _ _ h => h, fun _ h => h,
    fun _ h => h, Nat.le_refl _, fun _ _ _ h => h⟩
  rcases hi with (hi | hi) | hi
  · exact Or.inl (Or.inl (hdown _ hi))
  · exact Or.inl (Or.inr hi)
  · exact Or.inr hi

omit [DecidableEq P] [DecidableEq W] [DecidableEq Id] in
@[simp] theorem RemovePc.mapScan_eq_notCalled (f : Scan Id (Session P W) → Scan Id (Session P W))
    (pc : RemovePc P W Id) : pc.mapScan f = .notCalled ↔ pc = .notCalled := by
  cases pc <;> simp [RemovePc.mapScan]

omit [DecidableEq P] [DecidableEq W] [DecidableEq Id] in
@[simp] theorem ClosePc.mapScan_eq_notCalled (f : Scan Id (Session P W) → Scan Id (Session P W))
    (pc : ClosePc P W Id) : pc.mapScan f = .notCalled ↔ pc = .notCalled := by
  cases pc <;> simp [ClosePc.mapScan]

theorem Grows.store (hx : x.serial = s.serial) : Grows s (store s id x) := by
  refine ⟨fun i z hi => ?_, fun i z hi => ?_, ?_, fun _ _ h => h, fun _ h => h, fun _ h => h,
    Nat.le_succ _, ?_⟩
  · simpa [WorkerInformed, WorkerKnows, WorkerSentClose, SessionTable.store] using hi
  · simpa [ProxyInformed, ProxyKnows, ProxySentEnd, SessionTable.store] using hi
  · intro p hp
    simpa [SessionTable.store] using hp
  · intro i z hz hl
    rcases load_of_store hl with ⟨rfl, rfl⟩ | ⟨-, hl⟩
    · omega
    · exact hl

theorem Grows.delete (s : State P W Id) (id : Id) : Grows s (delete s id) := by
  refine ⟨fun i z hi => ?_, fun i z hi => ?_, ?_, fun _ _ h => h, fun _ h => h, fun _ h => h,
    Nat.le_refl _, fun _ _ _ hl => (load_of_delete hl).2⟩
  · simpa [WorkerInformed, WorkerKnows, WorkerSentClose, SessionTable.delete] using hi
  · simpa [ProxyInformed, ProxyKnows, ProxySentEnd, SessionTable.delete] using hi
  · intro p hp
    simpa [SessionTable.delete] using hp

/-! ## Serials -/

structure Stamped (s : State P W Id) : Prop where
  table : ∀ id x, load s.sessions id = some x → x.serial < s.serial
  connects : ∀ id x, (id, x) ∈ s.connects → x.serial < s.serial
  opens : ∀ p id x, (s.handler p).opens = some (id, x) →
    x.proxy = p ∧ x.serial < s.serial ∧ (id, x) ∉ s.connects

omit [DecidableEq P] [DecidableEq W] in
/-- A step that neither stores nor announces a session. -/
theorem Stamped.frame (hi : Stamped s) (hserial : t.serial = s.serial)
    (hconnects : t.connects = s.connects)
    (htable : ∀ id x, load t.sessions id = some x → load s.sessions id = some x)
    (hopens : ∀ q, (t.handler q).opens = none ∨ (t.handler q).opens = (s.handler q).opens) :
    Stamped t := by
  refine ⟨fun id x hl => ?_, fun id x hm => ?_, fun q id x ho => ?_⟩
  · rw [hserial]
    exact hi.table id x (htable id x hl)
  · rw [hserial]
    rw [hconnects] at hm
    exact hi.connects id x hm
  · rw [hserial, hconnects]
    rcases hopens q with h | h
    · rw [h] at ho
      cases ho
    · rw [h] at ho
      exact hi.opens q id x ho

omit [DecidableEq W] [DecidableEq Id] in
theorem opens_update {pc : HandlerPc P W Id} {f : P → HandlerPc P W Id}
    (h : pc.opens = none ∨ pc.opens = (f p).opens) (q : P) :
    (Function.update f p pc q).opens = none ∨ (Function.update f p pc q).opens = (f q).opens := by
  by_cases hq : q = p
  · subst hq
    rw [Function.update_self]
    exact h
  · rw [Function.update_of_ne hq]
    exact Or.inr rfl

theorem stamped_handler {e : HandlerEvent W Id} (hi : Stamped s)
    (h : handlerStep s p e = some t) : Stamped t := by
  have hmove : ∀ {pc : HandlerPc P W Id}, pc.opens = none ∨ pc.opens = (s.handler p).opens →
      ∀ {u : State P W Id}, u.serial = s.serial → u.connects = s.connects → u.handler = s.handler →
      (∀ id x, load u.sessions id = some x → load s.sessions id = some x) →
      Stamped (setHandler u p pc) := by
    intro pc hpc u hserial hconnects hhandler htable
    refine hi.frame hserial hconnects htable ?_
    rw [setHandler_handler, hhandler]
    exact opens_update hpc
  have hdel : ∀ id i z, load (delete s id).sessions i = some z → load s.sessions i = some z :=
    fun id i z hl => (load_of_delete hl).2
  cases handlerStep_move h with
  | store =>
    refine ⟨fun i z hl => ?_, fun i z hm => ?_, fun q i z ho => ?_⟩
    · simp only [setHandler, SessionTable.store]
      rcases load_of_store hl with ⟨-, rfl⟩ | ⟨-, hl⟩
      · exact Nat.lt_succ_self _
      · exact Nat.lt_succ_of_lt (hi.table i z hl)
    · exact Nat.lt_succ_of_lt (hi.connects i z hm)
    · by_cases hq : q = p
      · subst hq
        rw [setHandler_handler, Function.update_self] at ho
        cases ho
        refine ⟨rfl, Nat.lt_succ_self _, fun hm => ?_⟩
        exact Nat.lt_irrefl _ (hi.connects _ _ hm)
      · rw [setHandler_handler, Function.update_of_ne hq] at ho
        obtain ⟨hz, hlt, hm⟩ := hi.opens q i z ho
        exact ⟨hz, Nat.lt_succ_of_lt hlt, hm⟩
  | @connectSent id x _ _ hp hu =>
    obtain ⟨hx, hlt, -⟩ := hi.opens p id x (by rw [hp]; rfl)
    have hu' := (sendWorker_some hu).1
    rw [hu']
    refine ⟨hi.table, fun i z hm => ?_, fun q i z ho => ?_⟩
    · rcases List.mem_cons.mp hm with hc | hm
      · cases hc
        exact hlt
      · exact hi.connects i z hm
    · by_cases hq : q = p
      · subst hq
        rw [setHandler_handler, Function.update_self] at ho
        cases ho
      · rw [setHandler_handler, Function.update_of_ne hq] at ho
        obtain ⟨hz, hlt', hm⟩ := hi.opens q i z ho
        refine ⟨hz, hlt', fun hc => ?_⟩
        rcases List.mem_cons.mp hc with hc | hc
        · cases hc
          exact hq (hz.symm.trans hx)
        · exact hm hc
  | known | ignored => exact hi
  | connectAborted hp => exact hmove (Or.inr (by rw [hp]; rfl)) rfl rfl rfl fun _ _ h => h
  | checked | selected | noWorkers | data | dataAborted | closeAborted | readFailed =>
    exact hmove (Or.inl rfl) rfl rfl rfl fun _ _ h => h
  | close => exact hi.frame rfl rfl (fun _ _ h => h) (opens_update (Or.inl rfl))
  | connectDelete | dataDelete | closeDelete => exact hmove (Or.inl rfl) rfl rfl rfl (hdel _)
  | reported _ hu | refused _ hu =>
    rw [(writeProxy_some hu).1]
    exact hmove (Or.inl rfl) rfl rfl rfl fun _ _ h => h
  | dataSent _ hu | closeSent _ hu =>
    rw [(sendWorker_some hu).1]
    exact hmove (Or.inl rfl) rfl rfl rfl fun _ _ h => h

omit [DecidableEq P] [DecidableEq W] in
theorem Stamped.move (hi : Stamped s) (hserial : t.serial = s.serial)
    (hconnects : t.connects = s.connects) (hsessions : t.sessions = s.sessions)
    (hhandler : t.handler = s.handler) : Stamped t :=
  hi.frame hserial hconnects (fun _ _ hl => by rwa [hsessions] at hl)
    fun q => Or.inr (by rw [hhandler])

/-- A delete takes one key away and leaves the serials alone. -/
theorem Stamped.delete (hi : Stamped s) (hserial : t.serial = s.serial)
    (hconnects : t.connects = s.connects) (hsessions : t.sessions = (delete s id).sessions)
    (hhandler : t.handler = s.handler) : Stamped t :=
  hi.frame hserial hconnects (fun _ _ hl => (load_of_delete (by rwa [hsessions] at hl)).2)
    fun q => Or.inr (by rw [hhandler])

theorem stamped_close {e : CloseEvent P W Id} (hi : Stamped s) (h : closeStep s p e = some t) :
    Stamped t := by
  cases closeStep_move h with
  | delete => exact hi.delete rfl rfl rfl rfl
  | _ => exact hi.move rfl rfl rfl rfl

theorem stamped_removal {e : RemoveEvent P W Id} (hi : Stamped s) (h : removeStep s w e = some t) :
    Stamped t := by
  cases removeStep_move h with
  | notified _ hu =>
    rw [(writeProxy_some hu).1]
    exact hi.move rfl rfl rfl rfl
  | delete => exact hi.delete rfl rfl rfl rfl
  | _ => exact hi.move rfl rfl rfl rfl

theorem stamped_reader {e : ReaderEvent Id} (hi : Stamped s) (h : readerStep s w e = some t) :
    Stamped t := by
  cases readerStep_move h with
  | ignored => exact hi
  | frame | close | readFailed => exact hi.move rfl rfl rfl rfl
  | forwarded _ hu | closeForwarded _ hu =>
    rw [(writeProxy_some hu).1]
    exact hi.move rfl rfl rfl rfl
  | failDelete | closeDelete => exact hi.delete rfl rfl rfl rfl

theorem stamped_step {e : Event P W Id} (hi : Stamped s) (h : step s e = some t) : Stamped t := by
  cases e with
  | handler p e => exact stamped_handler hi h
  | close p e => exact stamped_close hi h
  | removal w e => exact stamped_removal hi h
  | reader w e => exact stamped_reader hi h
  | senderSent id x =>
    simp only [step] at h
    split at h
    · obtain ⟨u, hu, rfl⟩ := Option.map_eq_some_iff.mp h
      rw [(sendWorker_some hu).1]
      exact hi.move rfl rfl rfl rfl
    · cases h
  | senderAborted id x err =>
    simp only [step] at h
    split at h <;> cases h
    exact hi.move rfl rfl rfl rfl
  | workerWriter w | proxyWriter p =>
    simp only [step] at h
    obtain ⟨r, hr, rfl⟩ := Option.map_eq_some_iff.mp h
    exact hi.move rfl rfl rfl rfl

/-! ## What an operation knows while it is at work -/

/-- What `proxyHandler` of `p` knows about the session it holds. -/
def HandlerKnows (s : State P W Id) (p : P) : HandlerPc P W Id → Prop
  | .sending _ x _ _ => x.proxy = p ∧ x.serial < s.serial
  | .sendFailed id x _ => x.proxy = p ∧ x.serial < s.serial ∧
      (load s.sessions id = some x → WorkerInformed s id x)
  | .refusing _ x => x.proxy = p
  | .sendingClose id x => x.proxy = p ∧ x.serial < s.serial ∧ (id, x) ∈ s.proxyEnds
  | .closing id x => x.proxy = p ∧ x.serial < s.serial ∧ (id, x) ∈ s.proxyEnds ∧
      (load s.sessions id = some x → WorkerInformed s id x)
  | _ => True

def ReaderKnows (s : State P W Id) (w : W) : ReaderPc P W Id → Prop
  | .forwarding _ x _ _ => x.worker = w
  | .writeFailed _ x => x.worker = w ∧ s.close x.proxy ≠ .notCalled
  | .forwardingClose id x _ => x.worker = w ∧ (id, x) ∈ s.workerEnds
  | .closing id x => x.worker = w ∧ (id, x) ∈ s.workerEnds ∧
      (s.close x.proxy ≠ .notCalled ∨ ProxySentEnd s id x)
  | _ => True

def RemovalKnows (s : State P W Id) (w : W) : RemovePc P W Id → Prop
  | .notifying _ _ x => x.worker = w
  | .deleting _ id x => x.worker = w ∧ (s.close x.proxy ≠ .notCalled ∨ ProxySentEnd s id x)
  | _ => True

def CloseKnows (s : State P W Id) (p : P) : ClosePc P W Id → Prop
  | .deleting _ id x => x.proxy = p ∧ WorkerInformed s id x
  | _ => True

section

omit [DecidableEq P] [DecidableEq W]

theorem HandlerKnows.mono {pc : HandlerPc P W Id} (hg : Grows s t) (h : HandlerKnows s p pc) :
    HandlerKnows t p pc := by
  cases pc with
  | sending id x cmd payload => exact ⟨h.1, Nat.lt_of_lt_of_le h.2 hg.serial⟩
  | sendFailed id x err =>
    obtain ⟨hx, hlt, hw⟩ := h
    exact ⟨hx, Nat.lt_of_lt_of_le hlt hg.serial, fun hl => hg.worker id x (hw (hg.table id x hlt hl))⟩
  | sendingClose id x => exact ⟨h.1, Nat.lt_of_lt_of_le h.2.1 hg.serial, hg.proxyEnds _ h.2.2⟩
  | closing id x =>
    obtain ⟨hx, hlt, he, hw⟩ := h
    exact ⟨hx, Nat.lt_of_lt_of_le hlt hg.serial, hg.proxyEnds _ he,
      fun hl => hg.worker id x (hw (hg.table id x hlt hl))⟩
  | _ => exact h

theorem ReaderKnows.mono {pc : ReaderPc P W Id} (hg : Grows s t) (h : ReaderKnows s w pc) :
    ReaderKnows t w pc := by
  cases pc with
  | writeFailed id x => exact ⟨h.1, hg.proxyDown _ h.2⟩
  | forwardingClose id x payload => exact ⟨h.1, hg.workerEnds _ h.2⟩
  | closing id x =>
    exact ⟨h.1, hg.workerEnds _ h.2.1, Or.imp (hg.proxyDown _) (hg.proxySent id x) h.2.2⟩
  | _ => exact h

theorem RemovalKnows.mono {pc : RemovePc P W Id} (hg : Grows s t) (h : RemovalKnows s w pc) :
    RemovalKnows t w pc := by
  cases pc with
  | deleting r id x => exact ⟨h.1, Or.imp (hg.proxyDown _) (hg.proxySent id x) h.2⟩
  | _ => exact h

theorem CloseKnows.mono {pc : ClosePc P W Id} (hg : Grows s t) (h : CloseKnows s p pc) :
    CloseKnows t p pc := by
  cases pc with
  | deleting r id x => exact ⟨h.1, hg.worker id x h.2⟩
  | _ => exact h

end

omit [DecidableEq P] [DecidableEq W] [DecidableEq Id] in
theorem RemovalKnows.mapScan {pc : RemovePc P W Id}
    (f : Scan Id (Session P W) → Scan Id (Session P W)) (h : RemovalKnows s w pc) :
    RemovalKnows s w (pc.mapScan f) := by
  cases pc <;> exact h

omit [DecidableEq P] [DecidableEq W] [DecidableEq Id] in
theorem CloseKnows.mapScan {pc : ClosePc P W Id}
    (f : Scan Id (Session P W) → Scan Id (Session P W)) (h : CloseKnows s p pc) :
    CloseKnows s p (pc.mapScan f) := by
  cases pc <;> exact h

structure Knows (s : State P W Id) : Prop where
  stamped : Stamped s
  handler : ∀ p, HandlerKnows s p (s.handler p)
  reader : ∀ w, ReaderKnows s w (s.reader w)
  removal : ∀ w, RemovalKnows s w (s.removal w)
  close : ∀ p, CloseKnows s p (s.close p)
  deleted : ∀ id x, (id, x) ∈ s.deleted → WorkerInformed s id x ∧ ProxyInformed s id x

omit [DecidableEq P] [DecidableEq W] in
theorem Knows.noneHalfClosed (hi : Knows s) : NoneHalfClosed s := by
  intro id x hd
  obtain ⟨hw, hp⟩ := hi.deleted id x hd
  refine ⟨?_, ?_⟩
  · rcases hw with hw | hw | hw
    · exact Or.inl hw
    · exact Or.inr (Or.inl hw)
    · exact Or.inr (Or.inr (Or.inl hw))
  · rcases hp with hp | hp | hp
    · exact Or.inl hp
    · exact Or.inr (Or.inl hp)
    · exact Or.inr (Or.inr (Or.inl hp))

omit [DecidableEq P] [DecidableEq W] in
/-- A step keeps what everybody knows, if the operation that moved knows its part
and whatever it deleted has been told of. -/
theorem Knows.grows (hi : Knows s) (hs : Stamped t) (hg : Grows s t)
    (hh : ∀ q, HandlerKnows t q (s.handler q) → HandlerKnows t q (t.handler q))
    (hr : ∀ v, ReaderKnows t v (s.reader v) → ReaderKnows t v (t.reader v))
    (hm : ∀ v, RemovalKnows t v (s.removal v) → RemovalKnows t v (t.removal v))
    (hc : ∀ q, CloseKnows t q (s.close q) → CloseKnows t q (t.close q))
    (hd : ∀ id x, (id, x) ∈ t.deleted →
      (id, x) ∈ s.deleted ∨ WorkerInformed t id x ∧ ProxyInformed t id x) : Knows t where
  stamped := hs
  handler := fun q => hh q ((hi.handler q).mono hg)
  reader := fun v => hr v ((hi.reader v).mono hg)
  removal := fun v => hm v ((hi.removal v).mono hg)
  close := fun q => hc q ((hi.close q).mono hg)
  deleted := fun id x hx => by
    rcases hd id x hx with hx | hx
    · obtain ⟨hw, hp⟩ := hi.deleted id x hx
      exact ⟨hg.worker id x hw, hg.proxy id x hp⟩
    · exact hx

theorem mem_deleted_delete {i : Id} (h : (i, y) ∈ (delete s id).deleted) :
    (i, y) ∈ s.deleted ∨ i = id ∧ load s.sessions id = some y ∧ (id, y) ∈ s.connects := by
  simp only [SessionTable.delete, List.mem_append, List.mem_filterMap, Option.mem_toList] at h
  rcases h with ⟨z, hl, hz⟩ | h
  · split at hz
    · rename_i hc
      cases hz
      exact Or.inr ⟨rfl, hl, hc⟩
    · cases hz
  · exact Or.inl h

theorem update_of_forall {α β : Type} [DecidableEq α] {Q : α → β → Prop} {f : α → β} {a : α} {b : β}
    (h : Q a b) (q : α) (hq : Q q (f q)) : Q q (Function.update f a b q) := by
  by_cases hqa : q = a
  · subst hqa
    rw [Function.update_self]
    exact h
  · rw [Function.update_of_ne hqa]
    exact hq

omit [DecidableEq W] in
/-- A handler moves on without deleting anything. -/
theorem Knows.setHandler (hi : Knows s) {pc : HandlerPc P W Id}
    (hs : Stamped (setHandler t p pc)) (hg : Grows s (setHandler t p pc))
    (hhandler : t.handler = s.handler) (hreader : t.reader = s.reader)
    (hremoval : ∀ v, RemovalKnows (setHandler t p pc) v (s.removal v) →
      RemovalKnows (setHandler t p pc) v (t.removal v))
    (hclose : ∀ q, CloseKnows (setHandler t p pc) q (s.close q) →
      CloseKnows (setHandler t p pc) q (t.close q))
    (hdeleted : t.deleted = s.deleted) (hnew : HandlerKnows (setHandler t p pc) p pc) :
    Knows (setHandler t p pc) := by
  refine hi.grows hs hg ?_ ?_ hremoval hclose ?_
  · rw [setHandler_handler, hhandler]
    exact fun q => update_of_forall hnew q
  · exact fun v hv => (show t.reader v = s.reader v by rw [hreader]) ▸ hv
  · intro id x hx
    rw [show (SessionTable.setHandler t p pc).deleted = t.deleted from rfl, hdeleted] at hx
    exact Or.inl hx

omit [DecidableEq W] in
/-- A handler that was not refusing moves on, and nothing else changes. -/
theorem Knows.moveHandler (hi : Knows s) {pc pc' : HandlerPc P W Id}
    (hs : Stamped (SessionTable.setHandler s p pc')) (hp : s.handler p = pc)
    (hne : ∀ i z, pc ≠ .refusing i z)
    (hnew : HandlerKnows (SessionTable.setHandler s p pc') p pc') :
    Knows (SessionTable.setHandler s p pc') :=
  hi.setHandler hs (.setHandler fun i z hz => absurd (hp.symm.trans hz) (hne i z)) rfl rfl
    (fun _ h => h) (fun _ h => h) rfl hnew

/-- A handler deletes the key it is working on. -/
theorem Knows.handlerDelete (hi : Knows s) {pc : HandlerPc P W Id}
    (hs : Stamped (SessionTable.setHandler (delete s id) p pc))
    (hpc : ∀ i z, s.handler p ≠ .refusing i z)
    (hnew : HandlerKnows (SessionTable.setHandler (delete s id) p pc) p pc)
    (hown : ∀ z, load s.sessions id = some z → (id, z) ∈ s.connects →
      WorkerInformed s id z ∧ ProxyInformed (SessionTable.setHandler (delete s id) p pc) id z) :
    Knows (SessionTable.setHandler (delete s id) p pc) := by
  have hg : Grows s (SessionTable.setHandler (delete s id) p pc) :=
    (Grows.delete s id).trans (.setHandler fun i z hz => absurd hz (hpc i z))
  refine hi.grows hs hg (fun q => update_of_forall hnew q) (fun _ h => h)
    (fun _ h => h.mapScan (fun d => d.onDelete id))
    (fun _ h => h.mapScan (fun d => d.onDelete id)) ?_
  intro i z hz
  rcases mem_deleted_delete hz with hz | ⟨rfl, hl, hc⟩
  · exact Or.inl hz
  · obtain ⟨hw, hp⟩ := hown z hl hc
    exact Or.inr ⟨hg.worker _ _ hw, hp⟩

theorem proxyKnows_of_done (h : proxyDone s p = true) : s.close p ≠ .notCalled := by
  simpa [proxyDone] using h

theorem removal_of_done (h : workerDone s w = true) : s.removal w ≠ .notCalled := by
  simp only [workerDone, decide_eq_true_eq] at h
  rw [h]
  exact nofun

/-- A send that did not go through leaves the worker informed, or the timer won. -/
theorem workerInformed_of_aborts (id : Id) {err : SendError} (h : sendAborts s x.worker err = true)
    (hsafe : err = .workerSendTimeout → WorkerSafe s id x) (hl : load s.sessions id = some x) :
    WorkerInformed s id x := by
  cases err with
  | workerDisconnected => exact Or.inl (Or.inl (removal_of_done h))
  | workerSendTimeout =>
    rcases hsafe rfl with hn | hk
    · exact absurd hl hn
    · exact Or.inl hk

theorem knows_handler {e : HandlerEvent W Id} (hi : Knows s)
    (hC : Accounted s (.handler p e)) (h : handlerStep s p e = some t) : Knows t := by
  have hst : Stamped t := stamped_handler hi.stamped h
  have hp₀ := hi.handler p
  cases handlerStep_move h with
  | known | ignored => exact hi
  | checked hp | selected hp | noWorkers hp | connectAborted hp | readFailed hp =>
    exact hi.moveHandler hst hp (by simp) trivial
  | @store req w hp =>
    have hne : ∀ i z, (store s req.id ⟨p, w, req.mode, s.serial⟩).handler p ≠ .refusing i z :=
      fun i z hz => by
        rw [show (store s req.id ⟨p, w, req.mode, s.serial⟩).handler = s.handler from rfl, hp] at hz
        cases hz
    exact hi.setHandler hst
      ((Grows.store rfl).trans (.setHandler fun i z hz => absurd hz (hne i z))) rfl rfl
      (fun _ h => h.mapScan (fun d => d.onStore req.id ⟨p, w, req.mode, s.serial⟩))
      (fun _ h => h.mapScan (fun d => d.onStore req.id ⟨p, w, req.mode, s.serial⟩)) rfl trivial
  | @connectSent id x _ u hp hu =>
    have hgu := Grows.sendWorker hu
    have hue := (sendWorker_some hu).1
    have hg : Grows s { setHandler u p .reading with connects := (id, x) :: u.connects } := by
      have hg' : Grows u (setHandler u p .reading) :=
        .setHandler fun i z hz => by rw [hue, hp] at hz; cases hz
      have hg'' := hgu.trans hg'
      exact ⟨hg''.worker, hg''.proxy, hg''.proxyDown, hg''.proxySent, hg''.proxyEnds,
        hg''.workerEnds, hg''.serial, hg''.table⟩
    refine hi.grows hst hg ?_ ?_ ?_ ?_ ?_
    · rw [show ({ setHandler u p .reading with connects := (id, x) :: u.connects } :
          State P W Id).handler = Function.update s.handler p .reading by rw [hue]; rfl]
      exact fun q => update_of_forall trivial q
    · exact fun v hv => (show u.reader v = s.reader v by rw [hue]) ▸ hv
    · exact fun v hv => (show u.removal v = s.removal v by rw [hue]) ▸ hv
    · exact fun q hq => (show u.close q = s.close q by rw [hue]) ▸ hq
    · intro i z hz
      have hd : u.deleted = s.deleted := by rw [hue]
      exact Or.inl (hd ▸ hz)
  | @connectDelete id x err hp =>
    refine hi.handlerDelete hst (fun i z hz => by rw [hp] at hz; cases hz) trivial ?_
    intro z hl hc
    rw [hC id x err hp z hl] at hc
    exact absurd hc (hi.stamped.opens p id x (by rw [hp]; rfl)).2.2
  | @reported _ _ _ _ u hp hu =>
    have hue := (writeProxy_some hu).1
    have hg : Grows s (setHandler u p .reading) := (Grows.writeProxy hu).trans
      (.setHandler fun i z hz => by rw [hue, hp] at hz; cases hz)
    rw [hue] at hst hg ⊢
    exact hi.setHandler hst hg rfl rfl (fun _ h => h) (fun _ h => h) rfl trivial
  | @data id _ _ x hp hl hx => exact hi.moveHandler hst hp (by simp) ⟨hx, hi.stamped.table id x hl⟩
  | @close id _ x hp hl hx =>
    have hlt := hi.stamped.table id x hl
    have hne : ∀ i z, s.handler p = .refusing i z → z.proxy = p →
        ProxyKnows s i z ∨ ProxySentEnd s i z := fun i z hz => by rw [hp] at hz; cases hz
    have hg := @Grows.setHandler _ _ _ _ _ s p (.sendingClose id x) hne
    refine hi.grows hst ⟨hg.worker, ?_, hg.proxyDown, hg.proxySent,
      fun e he => List.mem_cons_of_mem _ he, hg.workerEnds, hg.serial, hg.table⟩
      (fun q => update_of_forall ⟨hx, hlt, List.mem_cons_self⟩ q) (fun _ h => h)
      (fun _ h => h) (fun _ h => h) (fun _ _ h => Or.inl h)
    intro i z hz
    rcases hg.proxy i z hz with (hk | hk) | hk
    · exact Or.inl (Or.inl hk)
    · exact Or.inl (Or.inr (List.mem_cons_of_mem _ hk))
    · exact Or.inr hk
  | @dataSent _ _ _ _ u hp hu =>
    have hue := (sendWorker_some hu).1
    have hg : Grows s (setHandler u p .reading) := (Grows.sendWorker hu).trans
      (.setHandler fun i z hz => by rw [hue, hp] at hz; cases hz)
    rw [hue] at hst hg ⊢
    exact hi.setHandler hst hg rfl rfl (fun _ h => h) (fun _ h => h) rfl trivial
  | @dataAborted id x cmd payload _ hp ha =>
    rw [hp] at hp₀
    refine hi.moveHandler hst hp (by simp) ⟨hp₀.1, hp₀.2, fun hl => ?_⟩
    refine workerInformed_of_aborts id ha ?_ hl
    rintro rfl
    exact hC id x cmd payload hp
  | @dataDelete id x err hp =>
    rw [hp] at hp₀
    obtain ⟨hx, -, hw⟩ := hp₀
    refine hi.handlerDelete hst (fun i z hz => by rw [hp] at hz; cases hz) hx ?_
    intro z hl _
    obtain rfl := hC id x err hp z hl
    refine ⟨hw hl, Or.inr (Or.inr ?_)⟩
    rw [setHandler_handler, hx, Function.update_self]
  | @refused _ x ok u hp hu =>
    rw [hp] at hp₀
    obtain ⟨hue, hok, hno, -⟩ := writeProxy_some hu
    have hg : Grows s (setHandler u p .reading) := by
      refine (Grows.writeProxy hu).trans (.setHandler fun i z hz hzp => ?_)
      rw [hue, hp] at hz
      cases hz
      cases ok with
      | true => exact Or.inr ⟨.close, [], Or.inl rfl, hp₀ ▸ hok rfl⟩
      | false =>
        refine Or.inl (Or.inl ?_)
        rw [hue, show x.proxy = p from hp₀]
        exact proxyKnows_of_done (hno rfl)
    rw [hue] at hst hg ⊢
    exact hi.setHandler hst hg rfl rfl (fun _ h => h) (fun _ h => h) rfl trivial
  | @closeSent id x u hp hu =>
    rw [hp] at hp₀
    obtain ⟨hx, hlt, he⟩ := hp₀
    obtain ⟨hue, hsent, -⟩ := sendWorker_some hu
    have hg : Grows s (setHandler u p (.closing id x)) := (Grows.sendWorker hu).trans
      (.setHandler fun i z hz => by rw [hue, hp] at hz; cases hz)
    have hw : WorkerInformed (setHandler u p (.closing id x)) id x := Or.inr (Or.inl hsent)
    rw [hue] at hst hg hw ⊢
    exact hi.setHandler hst hg rfl rfl (fun _ h => h) (fun _ h => h) rfl ⟨hx, hlt, he, fun _ => hw⟩
  | @closeAborted id x _ hp ha =>
    rw [hp] at hp₀
    refine hi.moveHandler hst hp (by simp) ⟨hp₀.1, hp₀.2.1, hp₀.2.2, fun hl => ?_⟩
    refine workerInformed_of_aborts id ha ?_ hl
    rintro rfl
    exact hC id x hp
  | @closeDelete id x hp =>
    rw [hp] at hp₀
    obtain ⟨hx, -, he, hw⟩ := hp₀
    refine hi.handlerDelete hst (fun i z hz => by rw [hp] at hz; cases hz) trivial ?_
    intro z hl _
    obtain rfl := hC id x hp z hl
    exact ⟨hw hl, Or.inl (Or.inr he)⟩

theorem knows_close {e : CloseEvent P W Id} (hi : Knows s) (hst : Stamped t)
    (hC : Accounted s (.close p e)) (h : closeStep s p e = some t) : Knows t := by
  have hp₀ := hi.close p
  have hmove : ∀ {pc : ClosePc P W Id}, Stamped (setClose s p pc) → pc ≠ .notCalled →
      CloseKnows (setClose s p pc) p pc → Knows (setClose s p pc) :=
    fun hs hpc hnew => hi.grows hs (.setClose hpc) (fun _ h => h) (fun _ h => h) (fun _ h => h)
      (fun q => update_of_forall hnew q) (fun _ _ h => Or.inl h)
  cases closeStep_move h with
  | begin | rangeStart => exact hmove hst nofun trivial
  | @found r d i y _ _ hy =>
    have hg := @Grows.setClose _ _ _ _ _ s p (.deleting { r with scan := d } i y) nofun
    refine hi.grows hst ⟨?_, hg.proxy, hg.proxyDown, hg.proxySent, hg.proxyEnds,
      hg.workerEnds, hg.serial, hg.table⟩ (fun _ h => h) (fun _ h => h) (fun _ h => h)
      (fun q => update_of_forall ⟨hy, Or.inr (Or.inr List.mem_cons_self)⟩ q)
      (fun _ _ h => Or.inl h)
    intro i' z hz
    rcases hg.worker i' z hz with hk | hk | hk
    · exact Or.inl hk
    · exact Or.inr (Or.inl hk)
    · exact Or.inr (Or.inr (List.mem_cons_of_mem _ hk))
  | passed => exact hmove hst nofun trivial
  | @delete r id x hp =>
    rw [hp] at hp₀
    obtain ⟨hx, hw⟩ := hp₀
    have hg := (Grows.delete s id).trans (@Grows.setClose _ _ _ _ _ (delete s id) p
      (.scanning { r with scan := r.scan.onDelete id }) nofun)
    refine hi.grows hst hg (fun _ h => h) (fun _ h => h) (fun _ h => h.mapScan (·.onDelete id))
      (fun q hq => update_of_forall (f := (delete s id).close) trivial q
        (hq.mapScan (·.onDelete id))) ?_
    intro i z hz
    rcases mem_deleted_delete hz with hz | ⟨rfl, hl, -⟩
    · exact Or.inl hz
    · obtain rfl := hC r i x hp z hl
      have hk : ProxyInformed s i z := Or.inl (Or.inl (by rw [hx, hp]; exact nofun))
      exact Or.inr ⟨hg.worker i z hw, hg.proxy i z hk⟩
  | rangeEnd => exact hmove hst nofun trivial

theorem knows_removal {e : RemoveEvent P W Id} (hi : Knows s) (hst : Stamped t)
    (hC : Accounted s (.removal w e)) (h : removeStep s w e = some t) : Knows t := by
  have hp₀ := hi.removal w
  have hmove : ∀ {pc : RemovePc P W Id}, Stamped (setRemoval s w pc) → pc ≠ .notCalled →
      RemovalKnows (setRemoval s w pc) w pc → Knows (setRemoval s w pc) :=
    fun hs hpc hnew => hi.grows hs (.setRemoval hpc) (fun _ h => h) (fun _ h => h)
      (fun v => update_of_forall hnew v) (fun _ h => h) (fun _ _ h => Or.inl h)
  cases removeStep_move h with
  | begin | rangeStart | closeDone => exact hmove hst nofun trivial
  | found _ _ hy => exact hmove hst nofun hy
  | passed => exact hmove hst nofun trivial
  | @notified r id x ok u hp hu =>
    rw [hp] at hp₀
    obtain ⟨hue, hok, hno, -⟩ := writeProxy_some hu
    have hg : Grows s (setRemoval u w (.deleting r id x)) :=
      (Grows.writeProxy hu).trans (.setRemoval nofun)
    have hnew : RemovalKnows (setRemoval u w (.deleting r id x)) w (.deleting r id x) := by
      refine ⟨hp₀, ?_⟩
      cases ok with
      | true => exact Or.inr ⟨.close, [], Or.inl rfl, hok rfl⟩
      | false => exact Or.inl (hg.proxyDown _ (proxyKnows_of_done (hno rfl)))
    rw [hue] at hst hg hnew ⊢
    exact hi.grows hst hg (fun _ h => h) (fun _ h => h) (fun v => update_of_forall hnew v)
      (fun _ h => h) (fun _ _ h => Or.inl h)
  | @delete r id x hp =>
    rw [hp] at hp₀
    obtain ⟨hx, hk⟩ := hp₀
    have hg := (Grows.delete s id).trans (@Grows.setRemoval _ _ _ _ _ (delete s id) w
      (.scanning { r with scan := r.scan.onDelete id }) nofun)
    refine hi.grows hst hg (fun _ h => h) (fun _ h => h)
      (fun v hv => update_of_forall (f := (delete s id).removal) trivial v
        (hv.mapScan (·.onDelete id))) (fun _ h => h.mapScan (·.onDelete id)) ?_
    intro i z hz
    rcases mem_deleted_delete hz with hz | ⟨rfl, hl, -⟩
    · exact Or.inl hz
    · obtain rfl := hC r i x hp z hl
      have hw : WorkerInformed s i z := Or.inl (Or.inl (by rw [hx, hp]; exact nofun))
      have hpr : ProxyInformed s i z := by
        rcases hk with hk | hk
        · exact Or.inl (Or.inl hk)
        · exact Or.inr (Or.inl hk)
      exact Or.inr ⟨hg.worker i z hw, hg.proxy i z hpr⟩
  | rangeEnd => exact hmove hst nofun trivial

/-- A reader deletes the key of the frame it is working on. -/
theorem Knows.readerDelete (hi : Knows s) (hst : Stamped (setReader (delete s id) w .reading))
    (hown : ∀ z, load s.sessions id = some z → WorkerInformed s id z ∧ ProxyInformed s id z) :
    Knows (setReader (delete s id) w .reading) := by
  have hg : Grows s (setReader (delete s id) w .reading) :=
    (Grows.delete s id).trans (.setReader _ _ _)
  refine hi.grows hst hg (fun _ h => h) (fun v => update_of_forall trivial v)
    (fun _ h => h.mapScan (·.onDelete id)) (fun _ h => h.mapScan (·.onDelete id)) ?_
  intro i z hz
  rcases mem_deleted_delete hz with hz | ⟨rfl, hl, -⟩
  · exact Or.inl hz
  · obtain ⟨hw, hp⟩ := hown z hl
    exact Or.inr ⟨hg.worker i z hw, hg.proxy i z hp⟩

theorem knows_reader {e : ReaderEvent Id} (hi : Knows s) (hst : Stamped t)
    (hC : Accounted s (.reader w e)) (h : readerStep s w e = some t) : Knows t := by
  have hp₀ := hi.reader w
  have hmove : ∀ {pc : ReaderPc P W Id}, Stamped (setReader s w pc) →
      ReaderKnows (setReader s w pc) w pc → Knows (setReader s w pc) :=
    fun hs hnew => hi.grows hs (.setReader _ _ _) (fun _ h => h)
      (fun v => update_of_forall hnew v) (fun _ h => h) (fun _ h => h) (fun _ _ h => Or.inl h)
  cases readerStep_move h with
  | ignored => exact hi
  | frame _ _ hx => exact hmove hst hx
  | @close id payload x _ _ hx =>
    have hg := Grows.setReader s w (.forwardingClose id x payload)
    refine hi.grows hst ⟨?_, hg.proxy, hg.proxyDown, hg.proxySent, hg.proxyEnds,
      fun e he => List.mem_cons_of_mem _ he, hg.serial, hg.table⟩ (fun _ h => h)
      (fun v => update_of_forall ⟨hx, List.mem_cons_self⟩ v) (fun _ h => h)
      (fun _ h => h) (fun _ _ h => Or.inl h)
    intro i z hz
    rcases hg.worker i z hz with (hk | hk) | hk
    · exact Or.inl (Or.inl hk)
    · exact Or.inl (Or.inr (List.mem_cons_of_mem _ hk))
    · exact Or.inr hk
  | @forwarded id x _ _ ok u hp hu =>
    rw [hp] at hp₀
    obtain ⟨hue, -, hno, -⟩ := writeProxy_some hu
    have hg : Grows s (setReader u w (if ok then .reading else .writeFailed id x)) :=
      (Grows.writeProxy hu).trans (.setReader _ _ _)
    have hnew : ReaderKnows (setReader u w (if ok then .reading else .writeFailed id x)) w
        (if ok then .reading else .writeFailed id x) := by
      cases ok with
      | true => trivial
      | false => exact ⟨hp₀, hg.proxyDown _ (proxyKnows_of_done (hno rfl))⟩
    rw [hue] at hst hg hnew ⊢
    exact hi.grows hst hg (fun _ h => h) (fun v => update_of_forall hnew v) (fun _ h => h)
      (fun _ h => h) (fun _ _ h => Or.inl h)
  | @failDelete id x hp =>
    rw [hp] at hp₀
    obtain ⟨hsafe, hown⟩ := hC id x hp
    refine hi.readerDelete hst fun z hl => ?_
    obtain rfl := hown z hl
    refine ⟨Or.inl ?_, Or.inl (Or.inl hp₀.2)⟩
    rcases hsafe with hn | hk
    · exact absurd hl hn
    · exact hk
  | @closeForwarded id x payload ok u hp hu =>
    rw [hp] at hp₀
    obtain ⟨hue, hok, hno, -⟩ := writeProxy_some hu
    have hg : Grows s (setReader u w (.closing id x)) :=
      (Grows.writeProxy hu).trans (.setReader _ _ _)
    have hnew : ReaderKnows (setReader u w (.closing id x)) w (.closing id x) := by
      refine ⟨hp₀.1, hg.workerEnds _ hp₀.2, ?_⟩
      cases ok with
      | true => exact Or.inr ⟨.close, payload, Or.inl rfl, hok rfl⟩
      | false => exact Or.inl (hg.proxyDown _ (proxyKnows_of_done (hno rfl)))
    rw [hue] at hst hg hnew ⊢
    exact hi.grows hst hg (fun _ h => h) (fun v => update_of_forall hnew v) (fun _ h => h)
      (fun _ h => h) (fun _ _ h => Or.inl h)
  | @closeDelete id x hp =>
    rw [hp] at hp₀
    obtain ⟨-, he, hk⟩ := hp₀
    refine hi.readerDelete hst fun z hl => ?_
    obtain rfl := hC id x hp z hl
    refine ⟨Or.inl (Or.inr he), ?_⟩
    rcases hk with hk | hk
    · exact Or.inl (Or.inl hk)
    · exact Or.inr (Or.inl hk)
  | readFailed => exact hmove hst trivial

theorem mem_sent_of_pop {α β : Type} [DecidableEq α] {q : α → Fifo β} {a v : α} {r : β × Fifo β}
    {f : β} (h : (q a).pop = some r) (hf : f ∈ (q v).sent) :
    f ∈ (Function.update q a r.2 v).sent := by
  by_cases hv : v = a
  · subst hv
    rw [Function.update_self, (Fifo.pop_some h).1]
    exact hf
  · rw [Function.update_of_ne hv]
    exact hf

theorem knows_step {e : Event P W Id} (hi : Knows s) (hC : Accounted s e)
    (h : step s e = some t) : Knows t := by
  have hst := stamped_step hi.stamped h
  cases e with
  | handler p e => exact knows_handler hi hC h
  | close p e => exact knows_close hi hst hC h
  | removal w e => exact knows_removal hi hst hC h
  | reader w e => exact knows_reader hi hst hC h
  | senderSent id x =>
    simp only [step] at h
    split at h
    · obtain ⟨u, hu, rfl⟩ := Option.map_eq_some_iff.mp h
      obtain ⟨hue, hsent, -⟩ := sendWorker_some hu
      have hg := Grows.sendWorker hu
      have hw : ∀ i z, WorkerInformed u i z →
          WorkerInformed { u with senders := u.senders.erase (id, x) } i z := by
        rintro i z (hk | hk | hk)
        · exact Or.inl hk
        · exact Or.inr (Or.inl hk)
        · by_cases hz : (i, z) = (id, x)
          · cases hz
            exact Or.inr (Or.inl hsent)
          · exact Or.inr (Or.inr ((List.mem_erase_of_ne hz).mpr hk))
      have hg' : Grows s { u with senders := u.senders.erase (id, x) } :=
        ⟨fun i z hi => hw i z (hg.worker i z hi), hg.proxy, hg.proxyDown, hg.proxySent,
          hg.proxyEnds, hg.workerEnds, hg.serial, hg.table⟩
      rw [hue] at hst hg' ⊢
      exact hi.grows hst hg' (fun _ h => h) (fun _ h => h) (fun _ h => h) (fun _ h => h)
        (fun _ _ h => Or.inl h)
    · cases h
  | senderAborted id x err =>
    simp only [step] at h
    split at h
    · rename_i ha
      cases h
      have hk : WorkerKnows s id x := by
        cases err with
        | workerDisconnected => exact Or.inl (removal_of_done ha.2)
        | workerSendTimeout => exact hC
      have hw : ∀ i z, WorkerInformed s i z →
          WorkerInformed { s with senders := s.senders.erase (id, x) } i z := by
        rintro i z (hz | hz | hz)
        · exact Or.inl hz
        · exact Or.inr (Or.inl hz)
        · by_cases he : (i, z) = (id, x)
          · cases he
            exact Or.inl hk
          · exact Or.inr (Or.inr ((List.mem_erase_of_ne he).mpr hz))
      exact hi.grows hst ⟨hw, fun _ _ h => h, fun _ h => h, fun _ _ h => h, fun _ h => h,
        fun _ h => h, Nat.le_refl _, fun _ _ _ h => h⟩ (fun _ h => h) (fun _ h => h)
        (fun _ h => h) (fun _ h => h) (fun _ _ h => Or.inl h)
    · cases h
  | workerWriter w =>
    simp only [step] at h
    obtain ⟨r, hr, rfl⟩ := Option.map_eq_some_iff.mp h
    refine hi.grows hst ⟨fun i z hw => ?_, fun _ _ h => h, fun _ h => h, fun _ _ h => h,
      fun _ h => h, fun _ h => h, Nat.le_refl _, fun _ _ _ h => h⟩ (fun _ h => h) (fun _ h => h)
      (fun _ h => h) (fun _ h => h) (fun _ _ h => Or.inl h)
    rcases hw with hw | hw | hw
    · exact Or.inl hw
    · exact Or.inr (Or.inl (mem_sent_of_pop hr hw))
    · exact Or.inr (Or.inr hw)
  | proxyWriter p =>
    simp only [step] at h
    obtain ⟨r, hr, rfl⟩ := Option.map_eq_some_iff.mp h
    have hsent : ∀ i z, ProxySentEnd s i z →
        ProxySentEnd { s with toProxy := Function.update s.toProxy p r.2 } i z := by
      rintro i z ⟨cmd, payload, hc, hm⟩
      exact ⟨cmd, payload, hc, mem_sent_of_pop hr hm⟩
    refine hi.grows hst ⟨fun _ _ h => h, fun i z hp => ?_, fun _ h => h, hsent,
      fun _ h => h, fun _ h => h, Nat.le_refl _, fun _ _ _ h => h⟩ (fun _ h => h) (fun _ h => h)
      (fun _ h => h) (fun _ h => h) (fun _ _ h => Or.inl h)
    rcases hp with hp | hp | hp
    · exact Or.inl hp
    · exact Or.inr (Or.inl (hsent i z hp))
    · exact Or.inr (Or.inr hp)

omit [DecidableEq P] [DecidableEq W] in
theorem stamped_initial : Stamped (initial P W Id) where
  table := fun _ _ h => by cases h
  connects := fun _ _ h => by cases h
  opens := fun _ _ _ h => by cases h

omit [DecidableEq P] [DecidableEq W] in
theorem knows_initial : Knows (initial P W Id) where
  stamped := stamped_initial
  handler := fun _ => trivial
  reader := fun _ => trivial
  removal := fun _ => trivial
  close := fun _ => trivial
  deleted := fun _ _ h => by cases h

/-- In every run that meets the three conditions no session is left half-closed,
at any moment. -/
theorem none_half_closed_of_accounted {es : List (Event P W Id)}
    (h : Meets step Accounted (initial P W Id) es) :
    Always step NoneHalfClosed (initial P W Id) es :=
  always_of_invariant (fun _ _ _ hi hC hs => knows_step hi hC hs)
    (fun _ hi => hi.noneHalfClosed) knows_initial h

/-- A session the proxy opens and closes again. -/
def closedRun : List (Event Nat Nat Nat) :=
  [.handler 0 (.openRequest ⟨0, .tcp, [], []⟩), .handler 0 (.getWorker (some 0)),
   .handler 0 .store, .handler 0 .connectSent, .handler 0 (.frame 0 .close []),
   .handler 0 .closeSent, .handler 0 .closeDelete]

/-- The proxy's link dies while its worker forwards a frame: the reader deletes
the session before the sweep of `ProxyConnection.close` could see it. -/
def forgottenRun : List (Event Nat Nat Nat) :=
  [.handler 0 (.openRequest ⟨0, .tcp, [], []⟩), .handler 0 (.getWorker (some 0)),
   .handler 0 .store, .handler 0 .connectSent, .reader 0 (.frame 0 .data [7]),
   .close 0 .begin, .reader 0 (.forwarded false), .reader 0 .failDelete,
   .close 0 .rangeStart, .close 0 .rangeEnd]

theorem none_half_closed_closed :
    Always step NoneHalfClosed (initial Nat Nat Nat) closedRun := by
  refine none_half_closed_of_accounted ?_
  have hT : ∀ {s : State Nat Nat Nat} {e}, Accounted s e = True → Accounted s e :=
    fun h => h ▸ trivial
  refine meets_step (hT rfl) rfl (meets_step (hT rfl) rfl (meets_step (hT rfl) rfl ?_))
  refine meets_step (hT rfl) rfl (meets_step (hT rfl) rfl (meets_step (hT rfl) rfl ?_))
  refine meets_step ?_ rfl (meets_nil _)
  intro id x hp y hl
  cases hp
  cases hl
  rfl

/-- The worker is up, was never told and never will be. -/
theorem half_closed_session :
    ∃ s, run step (initial Nat Nat Nat) forgottenRun = some s ∧ ¬NoneHalfClosed s := by
  refine ⟨_, rfl, fun h => ?_⟩
  rcases (h 0 ⟨0, 0, .tcp, 0⟩ (List.mem_singleton.mpr rfl)).1 with (hw | hw) | hw | hw | hw
  · exact hw rfl
  · cases hw
  · have hmem : (⟨some ⟨0, 0, .tcp, 0⟩, ⟨0, .close, []⟩⟩ : Enqueued Nat Nat Nat) ∈
        [⟨some ⟨0, 0, .tcp, 0⟩, ⟨0, .connect, []⟩⟩] := hw
    revert hmem
    decide
  · cases hw
  · cases hw

end SplitProxy.SessionTable
