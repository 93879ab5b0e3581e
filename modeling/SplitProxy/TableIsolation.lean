import SplitProxy.TableStores

/-!
# Tenants of the broker

What a binary frame of one connection can reach. The messages are the bytes the
sockets deliver; beside the table the run keeps, for every connection, the
message its loop is working on with what `sessions.Load` found for it. Session
ids are requested once, as `newSessionID` promises.
-/
namespace SplitProxy.TableIsolation

open Runs SyncMap SessionTable

/-- `msg[:36]`, `msg[36]` and `msg[37:]`; shorter messages are skipped. -/
def readFrame (msg : Payload) : Option (Frame Payload) :=
  if msg.length < 37 then none
  else some ⟨msg.take 36, Command.ofByte (msg.getD 36 0), msg.drop 37⟩

def Frame.bytes (f : Frame Payload) : Payload := packet f.id f.cmd f.payload

@[simp] theorem code_ofByte (c : UInt8) : (Command.ofByte c).code = c := by
  unfold Command.ofByte
  split <;> rfl

/-- The frame of a message has the bytes of the message. -/
theorem bytes_readFrame {msg : Payload} {f : Frame Payload} (h : readFrame msg = some f) :
    Frame.bytes f = msg := by
  unfold readFrame at h
  split at h
  · cases h
  · rename_i hl
    cases h
    have h36 : 36 < msg.length := by omega
    have htake : (msg.take 36).length = 36 := by
      rw [List.length_take]
      omega
    have hid : (msg.take 36 ++ List.replicate 36 (0 : UInt8)).take 36 = msg.take 36 := by
      rw [List.take_append_of_le_length (by omega), List.take_take, Nat.min_self]
    have hget : msg.getD 36 0 = msg[36] := by simp [h36]
    unfold Frame.bytes packet
    rw [code_ofByte, hid, hget, ← List.drop_eq_getElem_cons h36, List.take_append_drop]

/-! ## Sessions whose ids are requested once -/

section Owned

variable {P W Id : Type} [DecidableEq P] [DecidableEq W] [DecidableEq Id]
variable {s t : SessionTable.State P W Id} {R R' : List Id} {p : P} {w : W} {id : Id}
  {x : Session P W}

/-- The id a step requests a session for. -/
def requested : SessionTable.Event P W Id → Option Id
  | .handler _ (.openRequest req) => some req.id
  | _ => none

/-- The session that was stored for the id, deleted or not. -/
structure Bound (R : List Id) (s : SessionTable.State P W Id) (id : Id) (x : Session P W) :
    Prop where
  requested : id ∈ R
  stored : ∀ q, (s.handler q).unstored ≠ some id
  only : load s.sessions id = some x ∨ load s.sessions id = none

/-- `R` are the ids requested so far. -/
structure Owned (R : List Id) (s : SessionTable.State P W Id) : Prop where
  table : ∀ id x, load s.sessions id = some x → id ∈ R
  unstored : ∀ p id, (s.handler p).unstored = some id → id ∈ R ∧ load s.sessions id = none
  alone : ∀ p q id, (s.handler p).unstored = some id → (s.handler q).unstored = some id → p = q
  handler : ∀ p id x, (s.handler p).holds = some (id, x) → x.proxy = p ∧ Bound R s id x
  reader : ∀ w id x, (s.reader w).holds = some (id, x) → x.worker = w ∧ Bound R s id x

section

omit [DecidableEq P] [DecidableEq W]

theorem owned_initial : Owned [] (SessionTable.initial P W Id) := by
  refine ⟨?_, ?_, ?_, ?_, ?_⟩
  · intro id x h
    cases h
  · intro p id h
    cases h
  · intro p q id h
    cases h
  · intro p id x h
    cases h
  · intro w id x h
    cases h

/-- A session in the table is the one stored for its id. -/
theorem Owned.bound (hs : Owned R s) (h : load s.sessions id = some x) : Bound R s id x := by
  refine ⟨hs.table id x h, fun q hq => ?_, Or.inl h⟩
  have hn := (hs.unstored q id hq).2
  rw [h] at hn
  cases hn

theorem Bound.frame (hb : Bound R s id x) (hR : R ⊆ R')
    (hu : ∀ q, (t.handler q).unstored = some id → (s.handler q).unstored = some id)
    (hl : load t.sessions id = load s.sessions id ∨ load t.sessions id = none) :
    Bound R' t id x := by
  refine ⟨hR hb.requested, fun q hq => hb.stored q (hu q hq), ?_⟩
  rcases hl with hl | hl
  · rw [hl]
    exact hb.only
  · exact Or.inr hl

theorem load_onlyDeletes (h : OnlyDeletes s t) (id : Id) :
    load t.sessions id = load s.sessions id ∨ load t.sessions id = none := by
  rcases h.2 with ht | ⟨i, ht⟩
  · rw [ht]
    exact Or.inl rfl
  · rw [ht, load_delete]
    split
    · exact Or.inr rfl
    · exact Or.inl rfl

/-- What the handlers and the table say is kept where nothing is stored or requested. -/
theorem Owned.onlyDeletes (hs : Owned R s) (hd : OnlyDeletes s t)
    (hr : ∀ w id x, (t.reader w).holds = some (id, x) → x.worker = w ∧ Bound R s id x) :
    Owned R t := by
  have hload := load_onlyDeletes hd
  have hkeep : ∀ id x, Bound R s id x → Bound R t id x := by
    intro id x hb
    refine hb.frame (List.Subset.refl R) (fun q hq => ?_) (hload id)
    rwa [hd.1] at hq
  refine ⟨fun id x hl => ?_, fun p id hp => ?_, fun p q id hp hq => ?_, fun p id x hp => ?_,
    fun w id x hw => ?_⟩
  · rcases hload id with h | h
    · exact hs.table id x (h.symm.trans hl)
    · rw [h] at hl
      cases hl
  · rw [hd.1] at hp
    obtain ⟨hin, hn⟩ := hs.unstored p id hp
    refine ⟨hin, ?_⟩
    rcases hload id with h | h
    · rw [h, hn]
    · exact h
  · rw [hd.1] at hp hq
    exact hs.alone p q id hp hq
  · rw [hd.1] at hp
    obtain ⟨hx, hb⟩ := hs.handler p id x hp
    exact ⟨hx, hkeep id x hb⟩
  · obtain ⟨hx, hb⟩ := hr w id x hw
    exact ⟨hx, hkeep id x hb⟩

end

theorem owned_reader {f : ReaderEvent Id} (hs : Owned R s) (h : readerStep s w f = some t) :
    Owned R t := by
  refine hs.onlyDeletes (onlyDeletes_reader h) (fun v id x hv => ?_)
  obtain ⟨-, pc, ht, he⟩ := reader_effect h
  by_cases hvw : v = w
  · rw [hvw, ht, Function.update_self] at hv
    rw [hvw]
    generalize hm : t.sessions = m at he
    cases he with
    | moved hh =>
      rcases hh id x hv with ho | ⟨hl, hx⟩
      · exact hs.reader w id x ho
      · exact ⟨hx, hs.bound hl⟩
    | deleted i y hw hn =>
      rw [hn] at hv
      cases hv
  · rw [ht, Function.update_of_ne hvw] at hv
    exact hs.reader v id x hv

section

omit [DecidableEq W]

/-- The handler of `p` moves and requests nothing. -/
theorem Owned.handler_moved {pc : HandlerPc P W Id} (hs : Owned R s) (hr : t.reader = s.reader)
    (ht : t.handler = Function.update s.handler p pc)
    (hu : ∀ id, pc.unstored = some id → (s.handler p).unstored = some id)
    (hl : ∀ id, load t.sessions id = load s.sessions id ∨ load t.sessions id = none)
    (hh : ∀ id x, pc.holds = some (id, x) → x.proxy = p ∧ Bound R s id x) : Owned R t := by
  have hback : ∀ q id, (t.handler q).unstored = some id → (s.handler q).unstored = some id := by
    intro q id hq
    by_cases hqp : q = p
    · rw [hqp, ht, Function.update_self] at hq
      rw [hqp]
      exact hu id hq
    · rwa [ht, Function.update_of_ne hqp] at hq
  have hkeep : ∀ id x, Bound R s id x → Bound R t id x :=
    fun id x hb => hb.frame (List.Subset.refl R) (fun q => hback q id) (hl id)
  refine ⟨fun id x hx => ?_, fun q id hq => ?_, fun a b id ha hb => ?_, fun q id x hq => ?_,
    fun w id x hw => ?_⟩
  · rcases hl id with h | h
    · exact hs.table id x (h.symm.trans hx)
    · rw [h] at hx
      cases hx
  · obtain ⟨hin, hn⟩ := hs.unstored q id (hback q id hq)
    refine ⟨hin, ?_⟩
    rcases hl id with h | h
    · rw [h, hn]
    · exact h
  · exact hs.alone a b id (hback a id ha) (hback b id hb)
  · have hown : x.proxy = q ∧ Bound R s id x := by
      by_cases hqp : q = p
      · rw [hqp, ht, Function.update_self] at hq
        rw [hqp]
        exact hh id x hq
      · rw [ht, Function.update_of_ne hqp] at hq
        exact hs.handler q id x hq
    exact ⟨hown.1, hkeep id x hown.2⟩
  · rw [hr] at hw
    obtain ⟨hx, hb⟩ := hs.reader w id x hw
    exact ⟨hx, hkeep id x hb⟩

/-- A call for a new id passes its check. -/
theorem Owned.passed (hs : Owned R s) (hr : t.reader = s.reader) {req : BrokerRequest Id}
    (ht : t.handler = Function.update s.handler p (.checked req))
    (hm : t.sessions = s.sessions) (hn : load s.sessions req.id = none) (hreq : req.id ∉ R) :
    Owned (req.id :: R) t := by
  have hback : ∀ q id, (t.handler q).unstored = some id →
      q = p ∧ id = req.id ∨ q ≠ p ∧ (s.handler q).unstored = some id := by
    intro q id hq
    by_cases hqp : q = p
    · rw [hqp, ht, Function.update_self] at hq
      cases hq
      exact Or.inl ⟨hqp, rfl⟩
    · rw [ht, Function.update_of_ne hqp] at hq
      exact Or.inr ⟨hqp, hq⟩
  have hkeep : ∀ id x, Bound R s id x → Bound (req.id :: R) t id x := by
    intro id x hb
    refine hb.frame (List.subset_cons_self _ _) (fun q hq => ?_) (Or.inl (by rw [hm]))
    rcases hback q id hq with ⟨-, hid⟩ | ⟨-, hq⟩
    · rw [← hid] at hreq
      exact absurd hb.requested hreq
    · exact hq
  refine ⟨fun id x hx => ?_, fun q id hq => ?_, fun a b id ha hb => ?_, fun q id x hq => ?_,
    fun w id x hw => ?_⟩
  · rw [hm] at hx
    exact List.mem_cons_of_mem _ (hs.table id x hx)
  · rw [hm]
    rcases hback q id hq with ⟨-, hid⟩ | ⟨-, hq⟩
    · rw [hid]
      exact ⟨List.mem_cons_self, hn⟩
    · obtain ⟨hin, hl⟩ := hs.unstored q id hq
      exact ⟨List.mem_cons_of_mem _ hin, hl⟩
  · rcases hback a id ha with ⟨hap, hid⟩ | ⟨-, ha⟩
    · rcases hback b id hb with ⟨hbp, -⟩ | ⟨-, hb⟩
      · rw [hap, hbp]
      · rw [hid] at hb
        exact absurd (hs.unstored b _ hb).1 hreq
    · rcases hback b id hb with ⟨-, hid⟩ | ⟨-, hb⟩
      · rw [hid] at ha
        exact absurd (hs.unstored a _ ha).1 hreq
      · exact hs.alone a b id ha hb
  · by_cases hqp : q = p
    · rw [hqp, ht, Function.update_self] at hq
      cases hq
    · rw [ht, Function.update_of_ne hqp] at hq
      obtain ⟨hx, hb⟩ := hs.handler q id x hq
      exact ⟨hx, hkeep id x hb⟩
  · rw [hr] at hw
    obtain ⟨hx, hb⟩ := hs.reader w id x hw
    exact ⟨hx, hkeep id x hb⟩

/-- The call stores; nobody else holds or wants its id. -/
theorem Owned.stored (hs : Owned R s) (hr : t.reader = s.reader) {req : BrokerRequest Id}
    {y : Session P W} (hp : (s.handler p).unstored = some req.id) (hy : y.proxy = p)
    (ht : t.handler = Function.update s.handler p (.connecting req.id y req.target))
    (hm : t.sessions = SyncMap.store s.sessions req.id y) : Owned R t := by
  have hreq := hs.unstored p req.id hp
  have hback : ∀ q id, (t.handler q).unstored = some id →
      q ≠ p ∧ (s.handler q).unstored = some id := by
    intro q id hq
    by_cases hqp : q = p
    · rw [hqp, ht, Function.update_self] at hq
      cases hq
    · rw [ht, Function.update_of_ne hqp] at hq
      exact ⟨hqp, hq⟩
  have hnot : ∀ q, (t.handler q).unstored ≠ some req.id := by
    intro q hq
    obtain ⟨hqp, hq⟩ := hback q _ hq
    exact hqp (hs.alone q p _ hq hp)
  have hkeep : ∀ id x, Bound R s id x → Bound R t id x := by
    intro id x hb
    have hne : id ≠ req.id := by
      rintro rfl
      exact hb.stored p hp
    refine hb.frame (List.Subset.refl R) (fun q hq => (hback q id hq).2) (Or.inl ?_)
    rw [hm, load_store_other _ _ hne]
  have hnew : Bound R t req.id y := by
    refine ⟨hreq.1, hnot, Or.inl ?_⟩
    rw [hm, load_store_self]
  refine ⟨fun id x hx => ?_, fun q id hq => ?_, fun a b id ha hb => ?_, fun q id x hq => ?_,
    fun w id x hw => ?_⟩
  · rw [hm] at hx
    rcases load_of_store hx with ⟨hid, -⟩ | ⟨-, hl⟩
    · rw [hid]
      exact hreq.1
    · exact hs.table id x hl
  · have hne : id ≠ req.id := by
      rintro rfl
      exact hnot q hq
    rw [hm, load_store_other _ _ hne]
    exact hs.unstored q id (hback q id hq).2
  · exact hs.alone a b id (hback a id ha).2 (hback b id hb).2
  · by_cases hqp : q = p
    · rw [hqp, ht, Function.update_self] at hq
      cases hq
      exact ⟨by rw [hy, hqp], hnew⟩
    · rw [ht, Function.update_of_ne hqp] at hq
      obtain ⟨hx, hb⟩ := hs.handler q id x hq
      exact ⟨hx, hkeep id x hb⟩
  · rw [hr] at hw
    obtain ⟨hx, hb⟩ := hs.reader w id x hw
    exact ⟨hx, hkeep id x hb⟩

end

omit [DecidableEq P] [DecidableEq W] in
theorem Owned.mono (hu : Owned R s) (hsub : R ⊆ R') : Owned R' s := by
  have hb : ∀ id x, Bound R s id x → Bound R' s id x :=
    fun id x hb => ⟨hsub hb.requested, hb.stored, hb.only⟩
  refine ⟨fun id x hx => hsub (hu.table id x hx), fun q id hq => ?_, hu.alone,
    fun q id x hq => ?_, fun w id x hw => ?_⟩
  · exact ⟨hsub (hu.unstored q id hq).1, (hu.unstored q id hq).2⟩
  · exact ⟨(hu.handler q id x hq).1, hb id x (hu.handler q id x hq).2⟩
  · exact ⟨(hu.reader w id x hw).1, hb id x (hu.reader w id x hw).2⟩

theorem owned_handler {f : HandlerEvent W Id} (hs : Owned R s)
    (hR : ∀ req, f = .openRequest req → req.id ∉ R) (h : handlerStep s p f = some t) :
    Owned ((requested (.handler p f : SessionTable.Event P W Id)).toList ++ R) t := by
  obtain ⟨hr, pc, ht, he⟩ := handler_effect h
  have hnone : ∀ {pc : HandlerPc P W Id}, pc.attempt = none → ∀ id, pc.unstored ≠ some id := by
    intro pc hpc id hu
    rw [attempt_of_unstored hu] at hpc
    cases hpc
  generalize hm : t.sessions = m at he
  cases he with
  | passed req hn => exact hs.passed hr ht hm hn (hR req rfl)
  | chosen req w hp =>
    refine hs.handler_moved hr ht (fun id hid => ?_) (fun id => Or.inl (by rw [hm]))
      (fun id x hx => by cases hx)
    rw [hp]
    exact hid
  | stored req w hp => exact hs.stored hr (by rw [hp]; rfl) rfl ht hm
  | moved f pc hpc hh =>
    refine Owned.mono (hs.handler_moved hr ht (fun id hid => absurd hid (hnone hpc id))
      (fun id => Or.inl (by rw [hm])) (fun id x hx => ?_)) (List.subset_append_right _ R)
    rcases hh id x hx with ho | ⟨hl, hxp⟩
    · exact hs.handler p id x ho
    · exact ⟨hxp, hs.bound hl⟩
  | deleted f pc i y hpc hy hh =>
    refine Owned.mono (hs.handler_moved hr ht (fun id hid => absurd hid (hnone hpc id))
      (fun id => ?_) (fun id x hx => hs.handler p id x (hh id x hx))) (List.subset_append_right _ R)
    rw [hm, load_delete]
    split
    · exact Or.inr rfl
    · exact Or.inl rfl

theorem owned_step {e : SessionTable.Event P W Id} (hs : Owned R s)
    (hR : ∀ id, requested e = some id → id ∉ R) (h : SessionTable.step s e = some t) :
    Owned ((requested e).toList ++ R) t := by
  rcases step_effect h with ⟨p, f, rfl, hp⟩ | ⟨w, f, rfl, hw⟩ | hb
  · refine owned_handler hs (fun req hf => ?_) hp
    subst hf
    exact hR req.id rfl
  · exact owned_reader hs hw
  · refine (hs.onlyDeletes hb.1 (fun w id x hw => ?_)).mono (List.subset_append_right _ R)
    rw [hb.2] at hw
    exact hs.reader w id x hw

end Owned

/-! ## What a forwarded frame touches -/

section Spares

variable {P W Id : Type} [DecidableEq P] [DecidableEq W] [DecidableEq Id]
variable {s t : SessionTable.State P W Id} {R : List Id} {p : P} {w : W} {id : Id}
  {x : Session P W} {K : Session P W → Bool}

/-- The sessions in `K` stay as they are in the table, and so does every queued frame
that does not belong to a session outside `K`. -/
structure Spares (K : Session P W → Bool) (s t : SessionTable.State P W Id) : Prop where
  sessions : ∀ id y, K y = true →
    (load t.sessions id = some y ↔ load s.sessions id = some y)
  toWorker : ∀ w, (t.toWorker w).queue.filter (fun f => f.session.all K) =
    (s.toWorker w).queue.filter (fun f => f.session.all K)
  toProxy : ∀ p, (t.toProxy p).queue.filter (fun f => f.session.all K) =
    (s.toProxy p).queue.filter (fun f => f.session.all K)

omit [DecidableEq P] [DecidableEq W] in
theorem Spares.refl (s : SessionTable.State P W Id) : Spares K s s :=
  ⟨fun _ _ _ => Iff.rfl, fun _ => rfl, fun _ => rfl⟩

def pushWorker (s : SessionTable.State P W Id) (x : Session P W) (f : Frame Id) :
    SessionTable.State P W Id :=
  { s with
    toWorker := Function.update s.toWorker x.worker ((s.toWorker x.worker).push ⟨some x, f⟩) }

def pushProxy (s : SessionTable.State P W Id) (x : Session P W) (f : Frame Id) :
    SessionTable.State P W Id :=
  { s with
    toProxy := Function.update s.toProxy x.proxy ((s.toProxy x.proxy).push ⟨some x, f⟩) }

omit [DecidableEq P] in
theorem Spares.pushWorker (hx : K x = false) (f : Frame Id) :
    Spares K s (TableIsolation.pushWorker s x f) := by
  refine ⟨fun _ _ _ => Iff.rfl, fun w => ?_, fun _ => rfl⟩
  by_cases hw : w = x.worker
  · simp [TableIsolation.pushWorker, hw, hx]
  · simp [TableIsolation.pushWorker, hw]

omit [DecidableEq W] in
theorem Spares.pushProxy (hx : K x = false) (f : Frame Id) :
    Spares K s (TableIsolation.pushProxy s x f) := by
  refine ⟨fun _ _ _ => Iff.rfl, fun _ => rfl, fun p => ?_⟩
  by_cases hp : p = x.proxy
  · simp [TableIsolation.pushProxy, hp, hx]
  · simp [TableIsolation.pushProxy, hp]

omit [DecidableEq P] [DecidableEq W] in
theorem Spares.frame {u : SessionTable.State P W Id} (h : Spares K s u)
    (hsessions : t.sessions = u.sessions) (hworker : t.toWorker = u.toWorker)
    (hproxy : t.toProxy = u.toProxy) : Spares K s t := by
  refine ⟨?_, ?_, ?_⟩
  · rw [hsessions]
    exact h.sessions
  · rw [hworker]
    exact h.toWorker
  · rw [hproxy]
    exact h.toProxy

/-- Deleting an id deletes the session stored for it, or nothing. -/
theorem Spares.delete (hb : Bound R s id x) (hx : K x = false) : Spares K s (delete s id) := by
  refine ⟨fun i y hy => ?_, fun _ => rfl, fun _ => rfl⟩
  simp only [SessionTable.delete, load_delete]
  by_cases hi : i = id
  · have hne : load s.sessions id ≠ some y := by
      intro hl
      rcases hb.only with h | h
      · rw [hl] at h
        cases h
        rw [hx] at hy
        cases hy
      · rw [hl] at h
        cases h
    simp [hi, hne]
  · simp [hi]

omit [DecidableEq P] [DecidableEq Id] in
theorem sendWorker_eq {cmd : Command} {payload : Payload}
    (h : sendWorker s id x cmd payload = some t) :
    t = pushWorker s x ⟨id, cmd, payload⟩ := by
  unfold sendWorker at h
  split at h
  · cases h
    rfl
  · cases h

theorem writeProxy_eq {f : Frame Id} {ok : Bool}
    (h : writeProxy s x.proxy (some x) f ok = some t) : t = s ∨ t = pushProxy s x f := by
  cases ok with
  | true =>
    simp only [writeProxy] at h
    split at h
    · cases h
      exact Or.inr rfl
    · cases h
  | false =>
    simp only [writeProxy] at h
    split at h
    · cases h
      exact Or.inl rfl
    · cases h

/-- The steps of `proxyHandler` between reading a binary frame and reading on. -/
def answersFrame : HandlerEvent W Id → Bool
  | .dataSent | .dataAborted _ | .dataDelete | .refused _ => true
  | .closeSent | .closeAborted _ | .closeDelete => true
  | _ => false

/-- The same of `workerReader`. -/
def forwardsFrame : ReaderEvent Id → Bool
  | .forwarded _ | .failDelete | .closeForwarded _ | .closeDelete => true
  | _ => false

/-- The frame a handler is about to enqueue, with its session. -/
def HandlerPc.forwards : HandlerPc P W Id → Option (Session P W × Frame Id)
  | .sending id x cmd payload => some (x, ⟨id, cmd, payload⟩)
  | .sendingClose id x => some (x, ⟨id, .close, []⟩)
  | _ => none

def ReaderPc.forwards : ReaderPc P W Id → Option (Session P W × Frame Id)
  | .forwarding id x cmd payload => some (x, ⟨id, cmd, payload⟩)
  | .forwardingClose id x payload => some (x, ⟨id, .close, payload⟩)
  | _ => none

/-- A close is forwarded to a worker without its payload. -/
def emptyClose (f : Frame Id) : Frame Id :=
  if f.cmd = .close then { f with payload := [] } else f

omit [DecidableEq Id] in
theorem emptyClose_of_carriesData {f : Frame Id} (h : f.cmd.carriesData = true) :
    emptyClose f = f := by
  unfold emptyClose
  split
  · rename_i hc
    rw [hc] at h
    cases h
  · rfl

omit [DecidableEq P] [DecidableEq W] [DecidableEq Id] in
theorem holds_of_handler_forwards {pc : HandlerPc P W Id} {f : Frame Id}
    (h : HandlerPc.forwards pc = some (x, f)) : pc.holds = some (f.id, x) := by
  cases pc <;> cases h <;> rfl

omit [DecidableEq P] [DecidableEq W] [DecidableEq Id] in
theorem holds_of_reader_forwards {pc : ReaderPc P W Id} {f : Frame Id}
    (h : ReaderPc.forwards pc = some (x, f)) : pc.holds = some (f.id, x) := by
  cases pc <;> cases h <;> rfl

/-- While it answers a frame, a handler enqueues the frame it forwards and nothing else. -/
theorem toWorker_handler {f : HandlerEvent W Id} (hf : answersFrame f = true)
    (h : handlerStep s p f = some t) :
    t.toWorker = s.toWorker ∨ ∃ y g, HandlerPc.forwards (s.handler p) = some (y, g) ∧
      t.toWorker = (pushWorker s y g).toWorker := by
  cases handlerStep_move h with
  | dataSent hp hu | closeSent hp hu =>
    rw [sendWorker_eq hu, hp]
    exact Or.inr ⟨_, _, rfl, rfl⟩
  | dataAborted | closeAborted => exact Or.inl rfl
  | dataDelete | closeDelete => exact Or.inl rfl
  | refused _ hu =>
    rw [(writeProxy_some hu).1]
    exact Or.inl rfl
  | _ => cases hf

theorem toProxy_reader {f : ReaderEvent Id} (hf : forwardsFrame f = true)
    (h : readerStep s w f = some t) :
    t.toProxy = s.toProxy ∨ ∃ y g, ReaderPc.forwards (s.reader w) = some (y, g) ∧
      t.toProxy = (pushProxy s y g).toProxy := by
  cases readerStep_move h with
  | forwarded hw hu | closeForwarded hw hu =>
    rw [hw]
    rcases writeProxy_eq hu with rfl | rfl
    · exact Or.inl rfl
    · exact Or.inr ⟨_, _, rfl, rfl⟩
  | failDelete | closeDelete => exact Or.inl rfl
  | _ => cases hf

theorem spares_handler {f : HandlerEvent W Id} (hs : Owned R s) (hf : answersFrame f = true)
    (h : handlerStep s p f = some t) : Spares (fun y => y.proxy ≠ p) s t := by
  have hown : ∀ {id x}, (s.handler p).holds = some (id, x) →
      decide (x.proxy ≠ p) = false ∧ Bound R s id x := by
    intro id x hp
    obtain ⟨hx, hb⟩ := hs.handler p id x hp
    exact ⟨by simp [hx], hb⟩
  cases handlerStep_move h with
  | dataSent hp hu | closeSent hp hu =>
    obtain ⟨hx, -⟩ := hown (by rw [hp]; rfl)
    have hpush := Spares.pushWorker (s := s) (K := fun y => y.proxy ≠ p) hx
    rw [sendWorker_eq hu]
    exact (hpush _).frame rfl rfl rfl
  | dataAborted | closeAborted => exact (Spares.refl s).frame rfl rfl rfl
  | dataDelete hp | closeDelete hp =>
    obtain ⟨hx, hb⟩ := hown (by rw [hp]; rfl)
    have hdel := Spares.delete (K := fun y => y.proxy ≠ p) hb hx
    exact hdel.frame rfl rfl rfl
  | @refused _ x _ _ hp hu =>
    obtain ⟨hx, -⟩ := hown (by rw [hp]; rfl)
    have hxp : x.proxy = p := by simpa using hx
    have hpush := Spares.pushProxy (s := s) (K := fun y => y.proxy ≠ p) hx
    rw [← hxp] at hu
    rcases writeProxy_eq hu with rfl | rfl
    · exact (Spares.refl _).frame rfl rfl rfl
    · exact (hpush _).frame rfl rfl rfl
  | _ => cases hf

theorem spares_reader {f : ReaderEvent Id} (hs : Owned R s) (hf : forwardsFrame f = true)
    (h : readerStep s w f = some t) : Spares (fun y => y.worker ≠ w) s t := by
  have hown : ∀ {id x}, (s.reader w).holds = some (id, x) →
      decide (x.worker ≠ w) = false ∧ Bound R s id x := by
    intro id x hw
    obtain ⟨hx, hb⟩ := hs.reader w id x hw
    exact ⟨by simp [hx], hb⟩
  cases readerStep_move h with
  | forwarded hw hu | closeForwarded hw hu =>
    obtain ⟨hx, -⟩ := hown (by rw [hw]; rfl)
    have hpush := Spares.pushProxy (s := s) (K := fun y => y.worker ≠ w) hx
    rcases writeProxy_eq hu with rfl | rfl
    · exact (Spares.refl _).frame rfl rfl rfl
    · exact (hpush _).frame rfl rfl rfl
  | failDelete hw | closeDelete hw =>
    obtain ⟨hx, hb⟩ := hown (by rw [hw]; rfl)
    have hdel := Spares.delete (K := fun y => y.worker ≠ w) hb hx
    exact hdel.frame rfl rfl rfl
  | _ => cases hf

end Spares

/-! ## Messages -/

/-- The table with, for every connection, the last message its loop has read and what
`sessions.Load` found for it. -/
structure State (P W : Type) where
  table : SessionTable.State P W Payload
  proxyMessage : P → Option (Payload × Option (Session P W))
  workerMessage : W → Option (Payload × Option (Session P W))

def initial (P W : Type) : State P W :=
  ⟨SessionTable.initial P W Payload, fun _ => none, fun _ => none⟩

inductive Event (P W : Type) where
  /-- `proxyHandler` reads a binary message and looks its session up -/
  | proxyMessage (p : P) (msg : Payload)
  /-- so does `workerReader` -/
  | workerMessage (w : W) (msg : Payload)
  | table (e : SessionTable.Event P W Payload)
  deriving DecidableEq, Repr

/-- Frames come as messages, and `openProxySession` takes ids of 36 bytes only. -/
def admitted {P W : Type} : SessionTable.Event P W Payload → Bool
  | .handler _ (.frame _ _ _) => false
  | .reader _ (.frame _ _ _) => false
  | .handler _ (.openRequest req) => req.id.length = 36
  | _ => true

section Messages

variable {P W : Type} [DecidableEq P] [DecidableEq W]

def step (s : State P W) : Event P W → Option (State P W)
  | .proxyMessage p msg =>
    match readFrame msg with
    | none =>
      if s.table.handler p = .reading then
        some { s with proxyMessage := Function.update s.proxyMessage p (some (msg, none)) }
      else none
    | some f =>
      (handlerStep s.table p (.frame f.id f.cmd f.payload)).map fun t =>
        { s with
          table := t
          proxyMessage :=
            Function.update s.proxyMessage p (some (msg, load s.table.sessions f.id)) }
  | .workerMessage w msg =>
    match readFrame msg with
    | none =>
      if s.table.reader w = .reading then
        some { s with workerMessage := Function.update s.workerMessage w (some (msg, none)) }
      else none
    | some f =>
      (readerStep s.table w (.frame f.id f.cmd f.payload)).map fun t =>
        { s with
          table := t
          workerMessage :=
            Function.update s.workerMessage w (some (msg, load s.table.sessions f.id)) }
  | .table e =>
    if admitted e then (SessionTable.step s.table e).map fun t => { s with table := t } else none

/-- The step belongs to a binary message from `p`. -/
def OfProxy (p : P) : Event P W → Prop
  | .proxyMessage q _ => q = p
  | .table (.handler q f) => q = p ∧ answersFrame f = true
  | _ => False

/-- The step belongs to a message from `w`. -/
def OfWorker (w : W) : Event P W → Prop
  | .workerMessage v _ => v = w
  | .table (.reader v f) => v = w ∧ forwardsFrame f = true
  | _ => False

/-- The table maps the id to the session, or to none any more. -/
def StillOrGone (s : State P W) (id : Payload) (x : Session P W) : Prop :=
  load s.table.sessions id = some x ∨ load s.table.sessions id = none

/-- What a step on behalf of one connection's message does: it enqueues at most that
message, to the other end of the session the message was looked up to, and it spares
everything that belongs to another connection's sessions. -/
structure Isolated (s : State P W) (e : Event P W) : Prop where
  toWorker : ∀ p t, OfProxy p e → step s e = some t → t.table.toWorker = s.table.toWorker ∨
    ∃ msg f x, s.proxyMessage p = some (msg, some x) ∧ readFrame msg = some f ∧
      Frame.bytes f = msg ∧ x.proxy = p ∧ StillOrGone s f.id x ∧
      t.table.toWorker = (pushWorker s.table x (emptyClose f)).toWorker
  toProxy : ∀ w t, OfWorker w e → step s e = some t → t.table.toProxy = s.table.toProxy ∨
    ∃ msg f x, s.workerMessage w = some (msg, some x) ∧ readFrame msg = some f ∧
      Frame.bytes f = msg ∧ x.worker = w ∧ StillOrGone s f.id x ∧
      t.table.toProxy = (pushProxy s.table x f).toProxy
  proxySpares : ∀ p t, OfProxy p e → step s e = some t →
    Spares (fun y => y.proxy ≠ p) s.table t.table
  workerSpares : ∀ w t, OfWorker w e → step s e = some t →
    Spares (fun y => y.worker ≠ w) s.table t.table

/-- What is about to be forwarded is the message last read, looked up to that session. -/
structure Carried (s : State P W) : Prop where
  handler : ∀ p x g, HandlerPc.forwards (s.table.handler p) = some (x, g) →
    ∃ msg f, s.proxyMessage p = some (msg, some x) ∧ readFrame msg = some f ∧ g = emptyClose f
  reader : ∀ w x g, ReaderPc.forwards (s.table.reader w) = some (x, g) →
    ∃ msg, s.workerMessage w = some (msg, some x) ∧ readFrame msg = some g

omit [DecidableEq P] [DecidableEq W] in
theorem carried_initial : Carried (initial P W) := by
  refine ⟨fun p x g h => ?_, fun w x g h => ?_⟩
  · cases h
  · cases h

end Messages

section Forwards

variable {P W Id : Type} [DecidableEq P] [DecidableEq W] [DecidableEq Id]
variable {s t : SessionTable.State P W Id} {p : P} {w : W} {x : Session P W} {g : Frame Id}

/-- A handler has a frame to forward only right after it read one. -/
theorem forwards_handler {f : HandlerEvent W Id} (h : handlerStep s p f = some t)
    (hg : HandlerPc.forwards (t.handler p) = some (x, g)) :
    ∃ id cmd payload, f = .frame id cmd payload ∧ load s.sessions id = some x ∧
      g = emptyClose ⟨id, cmd, payload⟩ := by
  cases handlerStep_move h with
  | ignored hp =>
    rw [hp] at hg
    cases hg
  | data _ hl _ hc =>
    simp only [setHandler, Function.update_self, HandlerPc.forwards, Option.some.injEq,
      Prod.mk.injEq] at hg
    obtain ⟨rfl, rfl⟩ := hg
    exact ⟨_, _, _, rfl, hl, (emptyClose_of_carriesData hc).symm⟩
  | close _ hl =>
    simp only [setHandler, Function.update_self, HandlerPc.forwards, Option.some.injEq,
      Prod.mk.injEq] at hg
    obtain ⟨rfl, rfl⟩ := hg
    exact ⟨_, _, _, rfl, hl, rfl⟩
  | known hp =>
    rw [hp] at hg
    cases hg
  | checked | selected | noWorkers =>
    simp [HandlerPc.forwards] at hg
  | connectSent | dataSent | closeSent =>
    simp [HandlerPc.forwards] at hg
  | reported | refused =>
    simp [HandlerPc.forwards] at hg
  | connectAborted | dataAborted | closeAborted =>
    simp [HandlerPc.forwards] at hg
  | store | connectDelete | dataDelete | closeDelete | readFailed =>
    simp [HandlerPc.forwards] at hg

theorem forwards_reader {f : ReaderEvent Id} (h : readerStep s w f = some t)
    (hg : ReaderPc.forwards (t.reader w) = some (x, g)) :
    f = .frame g.id g.cmd g.payload ∧ load s.sessions g.id = some x := by
  cases readerStep_move h with
  | ignored hw =>
    rw [hw] at hg
    cases hg
  | frame _ hl | close _ hl =>
    simp only [setReader, Function.update_self, ReaderPc.forwards, Option.some.injEq,
      Prod.mk.injEq] at hg
    obtain ⟨rfl, rfl⟩ := hg
    exact ⟨rfl, hl⟩
  | @forwarded _ _ _ _ ok _ _ _ =>
    cases ok <;> simp [setReader, ReaderPc.forwards] at hg
  | closeForwarded =>
    simp [setReader, ReaderPc.forwards] at hg
  | failDelete | closeDelete | readFailed =>
    simp [setReader, ReaderPc.forwards] at hg

end Forwards

section Runs

variable {P W : Type} [DecidableEq P] [DecidableEq W]
variable {s t : State P W} {e : Event P W} {R : List Payload}

omit [DecidableEq P] [DecidableEq W] in
/-- A handler or a reader that has not moved still has the same frame to forward. -/
theorem Carried.frame (hs : Carried s)
    (hhandler : ∀ p x g, HandlerPc.forwards (t.table.handler p) = some (x, g) →
      (t.table.handler p = s.table.handler p ∧ t.proxyMessage p = s.proxyMessage p) ∨
        ∃ msg f, t.proxyMessage p = some (msg, some x) ∧ readFrame msg = some f ∧
          g = emptyClose f)
    (hreader : ∀ w x g, ReaderPc.forwards (t.table.reader w) = some (x, g) →
      (t.table.reader w = s.table.reader w ∧ t.workerMessage w = s.workerMessage w) ∨
        ∃ msg, t.workerMessage w = some (msg, some x) ∧ readFrame msg = some g) : Carried t := by
  refine ⟨fun p x g hg => ?_, fun w x g hg => ?_⟩
  · rcases hhandler p x g hg with ⟨hp, hm⟩ | h
    · rw [hm]
      rw [hp] at hg
      exact hs.handler p x g hg
    · exact h
  · rcases hreader w x g hg with ⟨hw, hm⟩ | h
    · rw [hm]
      rw [hw] at hg
      exact hs.reader w x g hg
    · exact h

theorem carried_proxyMessage {p : P} {msg : Payload} (hs : Carried s)
    (h : step s (.proxyMessage p msg) = some t) : Carried t := by
  simp only [step] at h
  split at h
  · split at h
    · rename_i hp
      cases h
      refine hs.frame (fun q x g hg => ?_) (fun w x g _ => Or.inl ⟨rfl, rfl⟩)
      by_cases hq : q = p
      · rw [hq] at hg
        simp only [hp] at hg
        cases hg
      · exact Or.inl ⟨rfl, Function.update_of_ne hq _ _⟩
    · cases h
  · rename_i f hf
    obtain ⟨u, hu, rfl⟩ := Option.map_eq_some_iff.mp h
    obtain ⟨hr, pc, ht, -⟩ := handler_effect hu
    refine hs.frame (fun q x g hg => ?_) (fun w x g _ => Or.inl ⟨congrFun hr w, rfl⟩)
    by_cases hq : q = p
    · rw [hq] at hg ⊢
      obtain ⟨id, cmd, payload, hfr, hl, hg⟩ := forwards_handler hu hg
      cases hfr
      exact Or.inr ⟨msg, f, by simp [hl], hf, hg⟩
    · refine Or.inl ⟨?_, Function.update_of_ne hq _ _⟩
      simp only [ht, Function.update_of_ne hq]

theorem carried_workerMessage {w : W} {msg : Payload} (hs : Carried s)
    (h : step s (.workerMessage w msg) = some t) : Carried t := by
  simp only [step] at h
  split at h
  · split at h
    · rename_i hw
      cases h
      refine hs.frame (fun p x g _ => Or.inl ⟨rfl, rfl⟩) (fun v x g hg => ?_)
      by_cases hv : v = w
      · rw [hv] at hg
        simp only [hw] at hg
        cases hg
      · exact Or.inl ⟨rfl, Function.update_of_ne hv _ _⟩
    · cases h
  · rename_i f hf
    obtain ⟨u, hu, rfl⟩ := Option.map_eq_some_iff.mp h
    obtain ⟨hh, pc, ht, -⟩ := reader_effect hu
    refine hs.frame (fun p x g _ => Or.inl ⟨congrFun hh p, rfl⟩) (fun v x g hg => ?_)
    by_cases hv : v = w
    · rw [hv] at hg ⊢
      obtain ⟨hfr, hl⟩ := forwards_reader hu hg
      have hfg : f = g := by
        cases f
        cases g
        cases hfr
        rfl
      rw [hfg] at hf ⊢
      exact Or.inr ⟨msg, by simp [hl], hf⟩
    · refine Or.inl ⟨?_, Function.update_of_ne hv _ _⟩
      simp only [ht, Function.update_of_ne hv]

theorem carried_step (hs : Carried s) (h : step s e = some t) : Carried t := by
  cases e with
  | proxyMessage p msg => exact carried_proxyMessage hs h
  | workerMessage w msg => exact carried_workerMessage hs h
  | table e =>
    simp only [step] at h
    split at h
    · rename_i ha
      obtain ⟨u, hu, rfl⟩ := Option.map_eq_some_iff.mp h
      rcases step_effect hu with ⟨p, f, rfl, hp⟩ | ⟨w, f, rfl, hw⟩ | hb
      · obtain ⟨hr, pc, ht, -⟩ := handler_effect hp
        refine hs.frame (fun q x g hg => ?_) (fun w x g _ => Or.inl ⟨congrFun hr w, rfl⟩)
        by_cases hq : q = p
        · rw [hq] at hg
          obtain ⟨id, cmd, payload, hfr, -⟩ := forwards_handler hp hg
          rw [hfr] at ha
          cases ha
        · refine Or.inl ⟨?_, rfl⟩
          simp only [ht, Function.update_of_ne hq]
      · obtain ⟨hh, pc, ht, -⟩ := reader_effect hw
        refine hs.frame (fun p x g _ => Or.inl ⟨congrFun hh p, rfl⟩) (fun v x g hg => ?_)
        by_cases hv : v = w
        · rw [hv] at hg
          obtain ⟨hfr, -⟩ := forwards_reader hw hg
          rw [hfr] at ha
          cases ha
        · refine Or.inl ⟨?_, rfl⟩
          simp only [ht, Function.update_of_ne hv]
      · exact hs.frame (fun p x g _ => Or.inl ⟨congrFun hb.1.1 p, rfl⟩)
          (fun w x g _ => Or.inl ⟨congrFun hb.2 w, rfl⟩)
    · cases h

/-- The id a step requests a session for. -/
def requestedId : Event P W → Option Payload
  | .table e => requested e
  | _ => none

theorem owned_event (hs : Owned R s.table) (hR : ∀ id, requestedId e = some id → id ∉ R)
    (h : step s e = some t) : Owned ((requestedId e).toList ++ R) t.table := by
  cases e with
  | proxyMessage p msg =>
    simp only [step] at h
    split at h
    · split at h <;> cases h
      exact hs
    · obtain ⟨u, hu, rfl⟩ := Option.map_eq_some_iff.mp h
      exact owned_handler hs (fun req hreq => by cases hreq) hu
  | workerMessage w msg =>
    simp only [step] at h
    split at h
    · split at h <;> cases h
      exact hs
    · obtain ⟨u, hu, rfl⟩ := Option.map_eq_some_iff.mp h
      exact owned_reader hs hu
  | table e =>
    simp only [step] at h
    split at h
    · obtain ⟨u, hu, rfl⟩ := Option.map_eq_some_iff.mp h
      exact owned_step hs hR hu
    · cases h

/-- Reading a message changes no queue and no entry. -/
theorem message_handler {p : P} {u : SessionTable.State P W Payload} {id payload : Payload}
    {cmd : Command} (h : handlerStep s.table p (.frame id cmd payload) = some u) :
    u.sessions = s.table.sessions ∧ u.toWorker = s.table.toWorker ∧
      u.toProxy = s.table.toProxy := by
  cases handlerStep_move h with
  | ignored | data | close => exact ⟨rfl, rfl, rfl⟩

theorem message_reader {w : W} {u : SessionTable.State P W Payload} {id payload : Payload}
    {cmd : Command} (h : readerStep s.table w (.frame id cmd payload) = some u) :
    u.sessions = s.table.sessions ∧ u.toWorker = s.table.toWorker ∧
      u.toProxy = s.table.toProxy := by
  cases readerStep_move h with
  | ignored | frame | close => exact ⟨rfl, rfl, rfl⟩

theorem proxyMessage_spares {p : P} {msg : Payload} (h : step s (.proxyMessage p msg) = some t) :
    t.table.toWorker = s.table.toWorker ∧ ∀ K, Spares K s.table t.table := by
  simp only [step] at h
  split at h
  · split at h <;> cases h
    exact ⟨rfl, fun K => Spares.refl _⟩
  · obtain ⟨u, hu, rfl⟩ := Option.map_eq_some_iff.mp h
    obtain ⟨hsessions, hworker, hproxy⟩ := message_handler hu
    exact ⟨hworker, fun K => (Spares.refl _).frame hsessions hworker hproxy⟩

theorem workerMessage_spares {w : W} {msg : Payload} (h : step s (.workerMessage w msg) = some t) :
    t.table.toProxy = s.table.toProxy ∧ ∀ K, Spares K s.table t.table := by
  simp only [step] at h
  split at h
  · split at h <;> cases h
    exact ⟨rfl, fun K => Spares.refl _⟩
  · obtain ⟨u, hu, rfl⟩ := Option.map_eq_some_iff.mp h
    obtain ⟨hsessions, hworker, hproxy⟩ := message_reader hu
    exact ⟨hproxy, fun K => (Spares.refl _).frame hsessions hworker hproxy⟩

theorem table_step {f : SessionTable.Event P W Payload} (h : step s (.table f) = some t) :
    SessionTable.step s.table f = some t.table := by
  simp only [step] at h
  split at h
  · obtain ⟨u, hu, rfl⟩ := Option.map_eq_some_iff.mp h
    exact hu
  · cases h

theorem isolated_of_owned (hs : Owned R s.table) (hc : Carried s) (e : Event P W) :
    Isolated s e := by
  refine ⟨fun p t hp h => ?_, fun w t hw h => ?_, fun p t hp h => ?_, fun w t hw h => ?_⟩
  · cases e with
    | proxyMessage q msg => exact Or.inl (proxyMessage_spares h).1
    | workerMessage w msg => exact hp.elim
    | table e =>
      cases e with
      | handler q f =>
        obtain ⟨rfl, hf⟩ := hp
        rcases toWorker_handler hf (table_step h) with hsame | ⟨x, g, hg, htw⟩
        · exact Or.inl hsame
        · obtain ⟨msg, f', hm, hr, rfl⟩ := hc.handler _ x g hg
          have hid : (emptyClose f').id = f'.id := by
            unfold emptyClose
            split <;> rfl
          obtain ⟨hx, hb⟩ := hs.handler _ _ _ (holds_of_handler_forwards hg)
          rw [hid] at hb
          exact Or.inr ⟨msg, f', x, hm, hr, bytes_readFrame hr, hx, hb.only, htw⟩
      | _ => exact hp.elim
  · cases e with
    | proxyMessage q msg => exact hw.elim
    | workerMessage v msg => exact Or.inl (workerMessage_spares h).1
    | table e =>
      cases e with
      | reader v f =>
        obtain ⟨rfl, hf⟩ := hw
        rcases toProxy_reader hf (table_step h) with hsame | ⟨x, g, hg, htp⟩
        · exact Or.inl hsame
        · obtain ⟨msg, hm, hr⟩ := hc.reader _ x g hg
          obtain ⟨hx, hb⟩ := hs.reader _ _ _ (holds_of_reader_forwards hg)
          exact Or.inr ⟨msg, g, x, hm, hr, bytes_readFrame hr, hx, hb.only, htp⟩
      | _ => exact hw.elim
  · cases e with
    | proxyMessage q msg => exact (proxyMessage_spares h).2 _
    | workerMessage w msg => exact hp.elim
    | table e =>
      cases e with
      | handler q f =>
        obtain ⟨rfl, hf⟩ := hp
        exact spares_handler hs hf (table_step h)
      | _ => exact hp.elim
  · cases e with
    | proxyMessage q msg => exact hw.elim
    | workerMessage v msg => exact (workerMessage_spares h).2 _
    | table e =>
      cases e with
      | reader v f =>
        obtain ⟨rfl, hf⟩ := hw
        exact spares_reader hs hf (table_step h)
      | _ => exact hw.elim

theorem isolated_from (es : List (Event P W)) (hs : Owned R s.table) (hc : Carried s)
    (hu : (es.filterMap requestedId).Nodup) (hR : ∀ id ∈ es.filterMap requestedId, id ∉ R) :
    Meets step Isolated s es := by
  induction es generalizing s R with
  | nil => trivial
  | cons e es ih =>
    refine ⟨isolated_of_owned hs hc e, fun t h => ?_⟩
    have hown := owned_event hs (fun id hid => hR id (by simp [hid])) h
    refine ih hown (carried_step hc h) ?_ (fun id hid => ?_)
    · cases hreq : requestedId e with
      | none => simpa [hreq] using hu
      | some i => exact (List.nodup_cons.mp (by simpa [hreq] using hu)).2
    · cases hreq : requestedId e with
      | none => simpa using hR id (by simpa [hreq] using hid)
      | some i =>
        rw [List.filterMap_cons_some hreq] at hu hR
        have hne : id ≠ i := by
          rintro rfl
          exact (List.nodup_cons.mp hu).1 hid
        simpa [hne] using hR id (List.mem_cons_of_mem _ hid)

/-- In a run in which no id is requested twice, messages reach their own sessions only. -/
theorem isolated_of_unique (es : List (Event P W)) (hu : (es.filterMap requestedId).Nodup) :
    Meets step Isolated (initial P W) es :=
  isolated_from es owned_initial carried_initial hu (fun _ _ => List.not_mem_nil)

end Runs

def sampleId : Payload := List.replicate 36 7

def sampleRequest : BrokerRequest Payload := ⟨sampleId, .tcp, [], []⟩

/-- A session is opened, the proxy sends data, a foreign proxy and a short message are
ignored, and the worker closes before the data is enqueued. -/
def crossingRun : List (Event Nat Nat) :=
  [.table (.handler 0 (.openRequest sampleRequest)), .table (.handler 0 (.getWorker (some 0))),
    .table (.handler 0 .store), .table (.handler 0 .connectSent),
    .proxyMessage 1 (packet sampleId .close []), .proxyMessage 1 [1, 2, 3],
    .proxyMessage 0 (packet sampleId .data [5]), .workerMessage 0 (packet sampleId .close []),
    .table (.reader 0 (.closeForwarded true)), .table (.reader 0 .closeDelete)]

theorem isolated_crossing : (crossingRun.filterMap requestedId).Nodup ∧
    Meets step Isolated (initial Nat Nat) crossingRun :=
  ⟨by decide, isolated_of_unique crossingRun (by decide)⟩

/-- The frame is enqueued to the worker when its id is mapped to nothing. -/
theorem enqueued_unmapped : (crossingRun.filterMap requestedId).Nodup ∧
    ∃ s t, run step (initial Nat Nat) crossingRun = some s ∧
      step s (.table (.handler 0 .dataSent)) = some t ∧
      load s.table.sessions sampleId = none ∧
      (t.table.toWorker 0).queue = (s.table.toWorker 0).queue ++
        [⟨some ⟨0, 0, .tcp, 0⟩, ⟨sampleId, .data, [5]⟩⟩] := by
  refine ⟨by decide, _, _, rfl, rfl, rfl, ?_⟩
  exact Fifo.push_queue _ _

end SplitProxy.TableIsolation
