import SplitProxy.TableStreams

/-!
# The streams through the broker

One invariant of the broker for all sessions at once: in both directions a
session's data goes to one channel only, as an initial segment of what was read;
one connect frame is made for a session, and an answer only after it came from
the worker. It holds in every run in which no id is requested twice and no data
arrives before its session is stored.
-/
namespace SplitProxy.TableStreams

open Runs SyncMap SessionTable

variable {P W Id : Type} [DecidableEq P] [DecidableEq W] [DecidableEq Id]

/-- The table's part in an event. -/
def Event.onTable : Event P W Id → SessionTable.Event P W Id
  | .proxyMessage p m => .handler p m.event
  | .workerMessage w f => .reader w (.frame f.id f.cmd f.payload)
  | .table e => e

/-- `CmdConnect` and `CmdUDPConnect` -/
def opens : Command → Bool
  | .connect | .udpConnect => true
  | _ => false

/-- The frames that open a session. -/
def connectsOf (id : Id) (fs : List (Frame Id)) : List (Frame Id) :=
  fs.filter fun f => decide (f.id = id) && opens f.cmd

/-- The streams through the broker, with what a session's opening and its answer
must have been preceded by. -/
structure Flows (watched : Id → Prop) (b : State P W Id) : Prop where
  tracked : Tracked b.table b.stored b.read
  up : Upward watched b.table b.stored b.read
  down : Downward watched b.table b.stored b.got
  sending : ∀ p id x cmd payload, b.table.handler p = .sending id x cmd payload →
    cmd.carriesData = true
  forwarding : ∀ w id x cmd payload, b.table.reader w = .forwarding id x cmd payload →
    ⟨id, cmd, payload⟩ ∈ b.got w
  connect : ∀ w f, f ∈ workerFrames b.table w → opens f.cmd = true →
    ∃ x, b.stored f.id = some x ∧ x.worker = w ∧ f.cmd = x.mode.connectCommand
  connected : ∀ p f, f ∈ proxyFrames b.table p → f.cmd = .connected →
    ∃ x, b.stored f.id = some x ∧ x.proxy = p ∧ f ∈ b.got x.worker
  connecting : ∀ p id x target, b.table.handler p = .connecting id x target →
    ∀ w, connectsOf id (workerFrames b.table w) = []
  once : ∀ w id, (connectsOf id (workerFrames b.table w)).length ≤ 1

/-- No id is requested twice, and data of a watched session comes only once it is stored. -/
def Fed (watched : Id → Prop) (b : State P W Id) : Event P W Id → Prop
  | .proxyMessage _ (.request req) => ∀ q r, .request r ∈ b.read q → r.id ≠ req.id
  | .proxyMessage _ (.frame f) | .workerMessage _ f =>
    watched f.id → f.cmd.carriesData = true → ∃ x, b.stored f.id = some x
  | .table _ => True

variable {watched : Id → Prop} {b c : State P W Id} {e : Event P W Id} {p : P} {w : W} {id : Id}
  {x : Session P W}

omit [DecidableEq P] [DecidableEq W] in
theorem flows_initial (watched : Id → Prop) : Flows watched (initial P W Id) := by
  refine ⟨tracked_initial, routed_empty _ _ _ _ _, routed_empty _ _ _ _ _, ?_, ?_, ?_, ?_, ?_, ?_⟩
  · intro p id x cmd payload h
    cases h
  · intro w id x cmd payload h
    cases h
  · intro w f h
    cases h
  · intro p f h
    cases h
  · intro p id x target h
    cases h
  · intro w id
    exact Nat.zero_le 1

/-! ## Histories only grow -/

theorem step_onTable (h : step b e = some c) :
    SessionTable.step b.table e.onTable = some c.table := by
  cases e with
  | proxyMessage p m | workerMessage w f =>
    obtain ⟨t, ht, rfl⟩ := Option.map_eq_some_iff.mp h
    exact ht
  | table e =>
    simp only [step] at h
    split at h
    · obtain ⟨t, ht, rfl⟩ := Option.map_eq_some_iff.mp h
      exact ht
    · cases h

theorem got_mono (h : step b e = some c) (v : W) : b.got v <+: c.got v := by
  cases e with
  | proxyMessage p m =>
    obtain ⟨t, -, rfl⟩ := Option.map_eq_some_iff.mp h
    exact List.prefix_rfl
  | workerMessage w f =>
    obtain ⟨t, -, rfl⟩ := Option.map_eq_some_iff.mp h
    by_cases hv : v = w
    · subst hv
      simp
    · simp [hv]
  | table e =>
    simp only [step] at h
    split at h
    · obtain ⟨t, -, rfl⟩ := Option.map_eq_some_iff.mp h
      exact List.prefix_rfl
    · cases h

omit [DecidableEq P] [DecidableEq W] [DecidableEq Id] in
/-- A session is stored by the handler that has its request. -/
theorem storesNow_some {t : SessionTable.State P W Id} {e : SessionTable.Event P W Id} {i : Id}
    {y : Session P W} (h : storesNow t e = some (i, y)) :
    ∃ p req w, e = .handler p .store ∧ t.handler p = .selected req w ∧ i = req.id ∧
      y = ⟨p, w, req.mode, t.serial⟩ := by
  unfold storesNow at h
  split at h
  · split at h
    · rename_i hp
      cases h
      exact ⟨_, _, _, rfl, hp, rfl, rfl⟩
    · cases h
  · cases h

theorem stored_mono (hk : Tracked b.table b.stored b.read) (h : step b e = some c)
    (hx : b.stored id = some x) : c.stored id = some x := by
  cases e with
  | proxyMessage p m | workerMessage w f =>
    obtain ⟨t, -, rfl⟩ := Option.map_eq_some_iff.mp h
    exact hx
  | table e =>
    simp only [step] at h
    split at h
    · obtain ⟨t, -, rfl⟩ := Option.map_eq_some_iff.mp h
      cases hst : storesNow b.table e with
      | none => exact hx
      | some r =>
        obtain ⟨p, req, w, -, hp, hi, -⟩ := storesNow_some (i := r.1) (y := r.2) hst
        have hnone := (hk.pending p req (by rw [hp]; rfl)).1
        have hne : id ≠ r.1 := by
          rw [hi]
          rintro rfl
          rw [hnone] at hx
          cases hx
        show Function.update b.stored r.1 (some r.2) id = some x
        rw [Function.update_of_ne hne, hx]
    · cases h

/-! ## The table's steps, one direction at a time -/

section Table

variable {s t : SessionTable.State P W Id} {st : Id → Option (Session P W)}
  {rd : P → List (Message Id)} {got : W → List (Frame Id)}

theorem load_of_handler {f : HandlerEvent W Id} (hf : f ≠ .store)
    (h : handlerStep s p f = some t) (id : Id) (x : Session P W)
    (hx : load t.sessions id = some x) : load s.sessions id = some x := by
  obtain ⟨-, pc, -, he⟩ := handler_effect h
  generalize hm : t.sessions = m at he hx
  cases he with
  | stored => exact absurd rfl hf
  | deleted f pc i y =>
    rw [load_delete] at hx
    split at hx
    · cases hx
    · exact hx
  | _ => exact hx

/-- A step that leaves the handlers and the workers' channels alone. -/
theorem Upward.keep (hs : Upward watched s st rd) (hh : t.handler = s.handler)
    (hd : workerData t = workerData s)
    (hl : ∀ id x, load t.sessions id = some x → load s.sessions id = some x) :
    Upward watched t st rd :=
  hs.move (.keep (fun id q => by rw [hh]) fun id w => by rw [hd]) hl

/-- A step that leaves the readers and the proxies' channels alone. -/
theorem Downward.keep (hs : Downward watched s st got) (hr : t.reader = s.reader)
    (hd : proxyData t = proxyData s)
    (hl : ∀ id x, load t.sessions id = some x → load s.sessions id = some x) :
    Downward watched t st got :=
  hs.move (.keep (fun id w => by rw [hr]) fun id q => by rw [hd]) hl

theorem store_some (h : handlerStep s p .store = some t) :
    ∃ req w, s.handler p = .selected req w ∧
      t = setHandler (SessionTable.store s req.id ⟨p, w, req.mode, s.serial⟩) p
        (.connecting req.id ⟨p, w, req.mode, s.serial⟩ req.target) := by
  cases handlerStep_move h with
  | store hp => exact ⟨_, _, hp, rfl⟩

omit [DecidableEq P] [DecidableEq W] in
theorem load_of_stored {i : Id} {y : Session P W} (hne : id ≠ i)
    (hx : load (SyncMap.store s.sessions i y) id = some x) : load s.sessions id = some x := by
  rcases load_of_store hx with ⟨hid, -⟩ | ⟨-, hl⟩
  · exact absurd hid hne
  · exact hl

omit [DecidableEq W] in
theorem Upward.store {req : BrokerRequest Id} {pc : HandlerPc P W Id} {y : Session P W}
    (hs : Upward watched s st rd) (hnone : st req.id = none) (hp : s.handler p = .selected req w)
    (hpc : ∀ id, handlerHand id pc = .free) (hy : y.proxy = p) :
    Upward watched (setHandler (SessionTable.store s req.id y) p pc)
      (Function.update st req.id (some y)) rd := by
  have hsame : ∀ id q, handlerHand id ((setHandler (SessionTable.store s req.id y) p pc).handler q) =
      handlerHand id (s.handler q) := by
    intro id q
    show handlerHand id (Function.update s.handler p pc q) = _
    rw [handlerHand_update]
    split
    · rename_i hq
      rw [hpc, hq, hp]
      rfl
    · rfl
  refine Routed.store hs hnone ?_ (fun id x hne hx => load_of_stored hne hx) hsame fun _ _ => rfl
  rw [hy, hp]
  rfl

omit [DecidableEq P] [DecidableEq W] in
/-- Only a reader that holds the session has its data in hand. -/
theorem readerHand_free {pc : ReaderPc P W Id} (h : ∀ x, pc.holds ≠ some (id, x)) :
    readerHand id pc = .free := by
  cases pc with
  | forwarding i x cmd payload | writeFailed i x =>
    refine if_neg ?_
    rintro rfl
    exact h x rfl
  | _ => rfl

omit [DecidableEq W] in
theorem Downward.store {req : BrokerRequest Id} {pc : HandlerPc P W Id}
    (hs : Downward watched s st got) (hk : Tracked s st rd) (hnone : st req.id = none)
    (y : Session P W) :
    Downward watched (setHandler (SessionTable.store s req.id y) p pc)
      (Function.update st req.id (some y)) got := by
  refine Routed.store hs hnone ?_ (fun id x hne hx => load_of_stored hne hx) (fun _ _ => rfl)
    fun _ _ => rfl
  refine readerHand_free fun x hx => ?_
  have hst := (hk.reader y.worker req.id x hx).1
  rw [hnone] at hst
  cases hst

end Table

/-! ## Opening a session -/

theorem connectsOf_append (id : Id) (fs gs : List (Frame Id)) :
    connectsOf id (fs ++ gs) = connectsOf id fs ++ connectsOf id gs := List.filter_append ..

theorem mem_connectsOf {f : Frame Id} {fs : List (Frame Id)} :
    f ∈ connectsOf id fs ↔ f ∈ fs ∧ f.id = id ∧ opens f.cmd = true := by
  simp [connectsOf]

theorem opens_of_carriesData {cmd : Command} (h : cmd.carriesData = true) : opens cmd = false := by
  cases cmd <;> first | rfl | cases h

theorem opens_connectCommand (m : Mode) : opens m.connectCommand = true := by
  cases m <;> rfl

section Origins

variable {s t : SessionTable.State P W Id} {q : P} {v : W}

/-- A handler that has moved is the one whose step it was. -/
theorem handler_other {f : HandlerEvent W Id} (h : handlerStep s p f = some t) (hq : q ≠ p) :
    t.handler q = s.handler q := by
  obtain ⟨-, pc, ht, -⟩ := handler_effect h
  rw [ht, Function.update_of_ne hq]

theorem reader_other {f : SessionTable.ReaderEvent Id} (h : readerStep s w f = some t)
    (hv : v ≠ w) : t.reader v = s.reader v := by
  obtain ⟨-, pc, ht, -⟩ := reader_effect h
  rw [ht, Function.update_of_ne hv]

/-- What a handler is about to send or to open. -/
theorem handler_origin {f : HandlerEvent W Id} (h : handlerStep s p f = some t) :
    (∀ id x cmd payload, t.handler p = .sending id x cmd payload →
      s.handler p = .sending id x cmd payload ∨ cmd.carriesData = true) ∧
    (∀ id x target, t.handler p = .connecting id x target →
      s.handler p = .connecting id x target ∨
        f = .store ∧ ∃ req w, s.handler p = .selected req w ∧ id = req.id) := by
  cases handlerStep_move h with
  | known | ignored => exact ⟨fun _ _ _ _ => Or.inl, fun _ _ _ => Or.inl⟩
  | data _ _ _ hc =>
    refine ⟨fun _ _ _ _ ht => Or.inr ?_, fun _ _ _ ht => ?_⟩
    · rw [setHandler_handler, Function.update_self] at ht
      cases ht
      exact hc
    · rw [setHandler_handler, Function.update_self] at ht
      cases ht
  | store hp =>
    refine ⟨fun _ _ _ _ ht => ?_, fun id x target ht => Or.inr ⟨rfl, _, _, hp, ?_⟩⟩
    · rw [setHandler_handler, Function.update_self] at ht
      cases ht
    · rw [setHandler_handler, Function.update_self] at ht
      cases ht
      rfl
  | _ =>
    -- the handler is left at neither place
    constructor <;> intros <;> simp_all

/-- What a reader is about to forward it has just read. -/
theorem reader_origin {f : SessionTable.ReaderEvent Id} (h : readerStep s w f = some t)
    {cmd : Command} {payload : Payload} (ht : t.reader w = .forwarding id x cmd payload) :
    s.reader w = .forwarding id x cmd payload ∨ f = .frame id cmd payload := by
  cases readerStep_move h with
  | ignored => exact Or.inl ht
  | frame =>
    rw [show (_ : SessionTable.State P W Id).reader w = _ from Function.update_self ..] at ht
    cases ht
    exact Or.inr rfl
  | @forwarded _ _ _ _ ok =>
    rw [show (_ : SessionTable.State P W Id).reader w = _ from Function.update_self ..] at ht
    cases ok <;> cases ht
  | _ =>
    rw [show (_ : SessionTable.State P W Id).reader w = _ from Function.update_self ..] at ht
    cases ht

end Origins

section Opening

variable {s t : SessionTable.State P W Id} {a : SessionTable.Event P W Id}
  {st : Id → Option (Session P W)} {rd : P → List (Message Id)}

/-- The frames that open sessions are left as they are, or the handler of an
`openProxySession` call adds its own. -/
inductive ConnectPush (s : SessionTable.State P W Id) (a : SessionTable.Event P W Id)
    (t : SessionTable.State P W Id) : Prop where
  | none (h : ∀ w id, connectsOf id (workerFrames t w) = connectsOf id (workerFrames s w))
  | one {p : P} {x : Session P W} {target : Payload} {f : Frame Id} (ha : a = .handler p .connectSent)
      (hp : s.handler p = .connecting f.id x target) (hf : f.cmd = x.mode.connectCommand)
      (h : ∀ w id, connectsOf id (workerFrames t w) =
        connectsOf id (workerFrames s w) ++ if w = x.worker ∧ f.id = id then [f] else [])

section

omit [DecidableEq P]

theorem connects_push (h : WorkerPush s a t)
    (hs : ∀ p id x cmd payload, s.handler p = .sending id x cmd payload → cmd.carriesData = true) :
    ConnectPush s a t := by
  cases h with
  | none h => exact .none fun w id => by rw [h]
  | @one x f hf h =>
    have hplain : opens f.cmd = false →
        ∀ w id, connectsOf id (workerFrames t w) = connectsOf id (workerFrames s w) := by
      intro hc w id
      rw [h, connectsOf_append]
      split <;> simp [connectsOf, hc]
    cases hf with
    | close hf => exact .none (hplain (by rw [hf]; rfl))
    | data ha hp => exact .none (hplain (opens_of_carriesData (hs _ _ _ _ _ hp)))
    | connect ha hp hf =>
      refine .one ha hp hf fun w id => ?_
      rw [h, connectsOf_append]
      have ho : opens f.cmd = true := by rw [hf]; exact opens_connectCommand _
      by_cases hw : w = x.worker <;> by_cases hid : f.id = id <;> simp [connectsOf, hw, hid, ho]

/-- The frame in a worker's channel that opens a session leads to its worker. -/
theorem connect_step (hc : ConnectPush s a t) (hk : Tracked s st rd)
    (hs : ∀ w f, f ∈ workerFrames s w → opens f.cmd = true →
      ∃ x, st f.id = some x ∧ x.worker = w ∧ f.cmd = x.mode.connectCommand)
    {f : Frame Id} (hf : f ∈ workerFrames t w) (ho : opens f.cmd = true) :
    ∃ x, st f.id = some x ∧ x.worker = w ∧ f.cmd = x.mode.connectCommand := by
  have hmem : f ∈ connectsOf f.id (workerFrames t w) := mem_connectsOf.mpr ⟨hf, rfl, ho⟩
  cases hc with
  | none h =>
    rw [h] at hmem
    exact hs w f (mem_connectsOf.mp hmem).1 ho
  | @one p x target g ha hp hg h =>
    rw [h] at hmem
    rcases List.mem_append.mp hmem with hmem | hmem
    · exact hs w f (mem_connectsOf.mp hmem).1 ho
    · split at hmem
      · rename_i hw
        cases List.mem_singleton.mp hmem
        exact ⟨x, (hk.handler p f.id x (by rw [hp]; rfl)).1, hw.1.symm, hg⟩
      · cases hmem

theorem once_step (hc : ConnectPush s a t)
    (hn : ∀ p id x target, s.handler p = .connecting id x target →
      ∀ w, connectsOf id (workerFrames s w) = [])
    (hs : ∀ w id, (connectsOf id (workerFrames s w)).length ≤ 1) (w : W) (id : Id) :
    (connectsOf id (workerFrames t w)).length ≤ 1 := by
  cases hc with
  | none h =>
    rw [h]
    exact hs w id
  | @one p x target g ha hp hg h =>
    rw [h]
    split
    · rename_i hw
      rw [← hw.2, hn p g.id x target hp w]
      exact Nat.le_refl 1
    · rw [List.append_nil]
      exact hs w id

end

omit [DecidableEq P] [DecidableEq W] in
/-- Two handlers never open the same session. -/
theorem connecting_other {q : P} {y : Session P W} {target target' : Payload}
    (hk : Tracked s st rd) (hp : s.handler p = .connecting id x target)
    (hq : s.handler q = .connecting id y target') : p = q := by
  obtain ⟨hx, hxp⟩ := hk.handler p id x (by rw [hp]; rfl)
  obtain ⟨hy, hyq⟩ := hk.handler q id y (by rw [hq]; rfl)
  rw [hx] at hy
  cases hy
  rw [← hxp, hyq]

/-- Only its own steps move a handler. -/
theorem step_handler {q : P} (h : SessionTable.step s a = some t) :
    t.handler q = s.handler q ∨ ∃ f, a = .handler q f ∧ handlerStep s q f = some t := by
  rcases step_effect h with ⟨p, f, rfl, hf⟩ | ⟨w, f, rfl, hf⟩ | hb
  · by_cases hq : q = p
    · subst hq
      exact Or.inr ⟨f, rfl, hf⟩
    · exact Or.inl (handler_other hf hq)
  · rw [(reader_effect hf).1]
    exact Or.inl rfl
  · rw [hb.1.1]
    exact Or.inl rfl

theorem step_reader {v : W} (h : SessionTable.step s a = some t) :
    t.reader v = s.reader v ∨ ∃ f, a = .reader v f ∧ readerStep s v f = some t := by
  rcases step_effect h with ⟨p, f, rfl, hf⟩ | ⟨w, f, rfl, hf⟩ | hb
  · rw [(handler_effect hf).1]
    exact Or.inl rfl
  · by_cases hv : v = w
    · subst hv
      exact Or.inr ⟨f, rfl, hf⟩
    · exact Or.inl (reader_other hf hv)
  · rw [hb.2]
    exact Or.inl rfl

theorem connecting_step {q : P} {target : Payload} (h : SessionTable.step s a = some t)
    (hc : ConnectPush s a t) (hk : Tracked s st rd)
    (hs : ∀ w f, f ∈ workerFrames s w → opens f.cmd = true →
      ∃ x, st f.id = some x ∧ x.worker = w ∧ f.cmd = x.mode.connectCommand)
    (hn : ∀ p id x target, s.handler p = .connecting id x target →
      ∀ w, connectsOf id (workerFrames s w) = [])
    (hq : t.handler q = .connecting id x target) (w : W) :
    connectsOf id (workerFrames t w) = [] := by
  have hbefore : connectsOf id (workerFrames s w) = [] ∧ (s.handler q = .connecting id x target ∨
      a = .handler q .store) := by
    have hnew : ∀ {f : HandlerEvent W Id}, handlerStep s q f = some t →
        s.handler q = .connecting id x target ∨
          f = .store ∧ ∃ req w, s.handler q = .selected req w ∧ id = req.id :=
      fun hf => (handler_origin hf).2 id x target hq
    rcases step_handler (q := q) h with heq | ⟨f, rfl, hf⟩
    · rw [heq] at hq
      exact ⟨hn q id x target hq w, Or.inl hq⟩
    · rcases hnew hf with hq' | ⟨rfl, req, v, hsel, rfl⟩
      · exact ⟨hn q id x target hq' w, Or.inl hq'⟩
      · -- an id that is not stored yet has no connect frame anywhere
        refine ⟨List.eq_nil_iff_forall_not_mem.mpr fun f hmem => ?_, Or.inr rfl⟩
        obtain ⟨hf, hid, ho⟩ := mem_connectsOf.mp hmem
        obtain ⟨y, hy, -⟩ := hs w f hf ho
        rw [hid, (hk.pending q req (by rw [hsel]; rfl)).1] at hy
        cases hy
  obtain ⟨hnil, hplace⟩ := hbefore
  cases hc with
  | none heq =>
    rw [heq]
    exact hnil
  | @one p y target' g ha hp hg heq =>
    rw [heq, hnil, List.nil_append, if_neg]
    rintro ⟨-, hid⟩
    rw [ha] at h hplace
    rcases hplace with hq' | hst
    · rw [hid] at hp
      have hpq := connecting_other hk hp hq'
      subst hpq
      simp only [SessionTable.step, handlerStep, hp] at h
      obtain ⟨u, hu, rfl⟩ := Option.map_eq_some_iff.mp h
      rw [show (_ : SessionTable.State P W Id).handler p = .reading from
        Function.update_self ..] at hq
      cases hq
    · cases hst

end Opening

/-! ## Every step of the broker -/

section Step

/-- Whose step it was. -/
inductive Kind (s : SessionTable.State P W Id) (t : SessionTable.State P W Id) :
    SessionTable.Event P W Id → Prop where
  | handler {p : P} {f : HandlerEvent W Id} (h : handlerStep s p f = some t) :
    Kind s t (.handler p f)
  | reader {w : W} {f : SessionTable.ReaderEvent Id} (h : readerStep s w f = some t) :
    Kind s t (.reader w f)
  | background {a : SessionTable.Event P W Id} (h : Background s t)
      (hp : ∀ p f, a ≠ .handler p f) (hw : ∀ w f, a ≠ .reader w f) : Kind s t a

theorem step_kind {s t : SessionTable.State P W Id} {a : SessionTable.Event P W Id}
    (h : SessionTable.step s a = some t) : Kind s t a := by
  cases a with
  | handler p f => exact .handler h
  | reader w f => exact .reader h
  | _ =>
    refine .background ?_ nofun nofun
    rcases step_effect h with ⟨p, f, ha, -⟩ | ⟨w, f, ha, -⟩ | hb
    · cases ha
    · cases ha
    · exact hb

/-- A step that is not a message: the one that stores, and the others. -/
inductive TableCase (b : State P W Id) (a : SessionTable.Event P W Id) (c : State P W Id) : Prop where
  | store {p : P} {req : BrokerRequest Id} {w : W} (ha : a = .handler p .store)
      (hp : b.table.handler p = .selected req w)
      (hst : c.stored = Function.update b.stored req.id (some ⟨p, w, req.mode, b.table.serial⟩))
  | plain (ha : ∀ p, a ≠ .handler p .store) (hst : c.stored = b.stored)

theorem table_cases {a : SessionTable.Event P W Id} (h : step b (.table a) = some c) :
    admitted a = true ∧ SessionTable.step b.table a = some c.table ∧ c.read = b.read ∧
      c.got = b.got ∧ TableCase b a c := by
  simp only [step] at h
  split at h
  · rename_i hadm
    obtain ⟨t, ht, rfl⟩ := Option.map_eq_some_iff.mp h
    refine ⟨hadm, ht, rfl, rfl, ?_⟩
    cases hst : storesNow b.table a with
    | none =>
      refine .plain ?_ rfl
      rintro p rfl
      obtain ⟨req, w, hp, -⟩ := store_some ht
      simp [storesNow, hp] at hst
    | some r =>
      obtain ⟨p, req, w, rfl, hp, hi, hy⟩ := storesNow_some (i := r.1) (y := r.2) hst
      exact .store rfl hp (by rw [← hi, ← hy])
  · cases h

theorem tracked_step (hs : Tracked b.table b.stored b.read) (hfed : Fed watched b e)
    (h : step b e = some c) : Tracked c.table c.stored c.read := by
  cases e with
  | proxyMessage p m =>
    obtain ⟨t, ht, rfl⟩ := Option.map_eq_some_iff.mp h
    have hread : ∀ q n, n ∈ b.read q → n ∈ Function.update b.read p (b.read p ++ [m]) q := by
      intro q n hn
      by_cases hq : q = p
      · subst hq
        rw [Function.update_self]
        exact List.mem_append_left _ hn
      · rw [Function.update_of_ne hq]
        exact hn
    refine hs.handlerStep (f := m.event) (fun req hreq => ?_) (by cases m <;> nofun) hread ht
    cases m with
    | frame f => cases hreq
    | request r =>
      cases hreq
      refine ⟨hfed, ?_⟩
      show Message.request req ∈ Function.update b.read p (b.read p ++ [.request req]) p
      rw [Function.update_self]
      exact List.mem_append_right _ (List.mem_singleton_self _)
  | workerMessage w f =>
    obtain ⟨t, ht, rfl⟩ := Option.map_eq_some_iff.mp h
    have hf : readerStep b.table w (.frame f.id f.cmd f.payload) = some t := ht
    exact hs.readerStep hf
  | table a =>
    obtain ⟨hadm, ht, hread, -, hcase⟩ := table_cases h
    rw [hread]
    cases hcase with
    | @store p req w ha hp hst =>
      rw [ha] at ht
      obtain ⟨req', w', hp', ht⟩ := store_some ht
      rw [hp] at hp'
      cases hp'
      rw [ht, hst]
      exact hs.stored rfl (by rw [hp]; rfl) rfl rfl rfl rfl
    | plain ha hst =>
      rw [hst]
      rcases step_effect ht with ⟨p, f, rfl, hf⟩ | ⟨w, f, rfl, hf⟩ | hb
      · refine hs.handlerStep (fun req hreq => ?_) ?_ (fun _ _ hm => hm) hf
        · rw [hreq] at hadm
          cases hadm
        · rintro rfl
          exact ha p rfl
      · exact hs.readerStep hf
      · exact hs.background hb

theorem up_step (hk : Tracked b.table b.stored b.read)
    (hs : Upward watched b.table b.stored b.read) (hfed : Fed watched b e)
    (h : step b e = some c) : Upward watched c.table c.stored c.read := by
  cases e with
  | proxyMessage p m =>
    obtain ⟨t, ht, rfl⟩ := Option.map_eq_some_iff.mp h
    cases m with
    | request req => exact hs.request ht
    | frame f => exact hs.frame hk hfed ht
  | workerMessage w f =>
    obtain ⟨t, ht, rfl⟩ := Option.map_eq_some_iff.mp h
    have hf : readerStep b.table w (.frame f.id f.cmd f.payload) = some t := ht
    exact hs.keep (reader_effect hf).1 ((reader_push hf).1.data fun _ => nofun)
      (load_of_onlyDeletes (onlyDeletes_reader hf))
  | table a =>
    obtain ⟨hadm, ht, hread, -, hcase⟩ := table_cases h
    rw [hread]
    cases hcase with
    | @store p req w ha hp hst =>
      rw [ha] at ht
      obtain ⟨req', w', hp', ht⟩ := store_some ht
      rw [hp] at hp'
      cases hp'
      rw [ht, hst]
      exact hs.store (hk.pending p req (by rw [hp]; rfl)).1 hp (fun _ => rfl) rfl
    | plain ha hst =>
      rw [hst]
      cases step_kind ht with
      | @handler p f hf =>
        obtain ⟨-, pc, hpc, -⟩ := handler_effect hf
        refine hs.move ((handler_stream hadm hf).move hk hpc) (load_of_handler ?_ hf)
        rintro rfl
        exact ha p rfl
      | reader hf =>
        exact hs.keep (reader_effect hf).1 ((reader_push hf).1.data fun _ => nofun)
          (load_of_onlyDeletes (onlyDeletes_reader hf))
      | background hb hp hw =>
        exact hs.keep hb.1.1 ((step_push ht).1.data fun p => hp p _) (load_of_onlyDeletes hb.1)

theorem down_step (hk : Tracked b.table b.stored b.read)
    (hs : Downward watched b.table b.stored b.got) (hfed : Fed watched b e)
    (h : step b e = some c) : Downward watched c.table c.stored c.got := by
  cases e with
  | proxyMessage p m =>
    obtain ⟨t, ht, rfl⟩ := Option.map_eq_some_iff.mp h
    have hf : handlerStep b.table p m.event = some t := ht
    exact hs.keep (handler_effect hf).1 ((handler_push hf).2.data fun _ => nofun)
      (load_of_handler (by cases m <;> nofun) hf)
  | workerMessage w f =>
    obtain ⟨t, ht, rfl⟩ := Option.map_eq_some_iff.mp h
    exact hs.frame hk hfed ht
  | table a =>
    obtain ⟨hadm, ht, -, hgot, hcase⟩ := table_cases h
    rw [hgot]
    cases hcase with
    | @store p req w ha hp hst =>
      rw [ha] at ht
      obtain ⟨req', w', hp', ht⟩ := store_some ht
      rw [hp] at hp'
      cases hp'
      rw [ht, hst]
      exact hs.store hk (hk.pending p req (by rw [hp]; rfl)).1 _
    | plain ha hst =>
      rw [hst]
      cases step_kind ht with
      | @handler p f hf =>
        refine hs.keep (handler_effect hf).1 ((handler_push hf).2.data fun _ => nofun)
          (load_of_handler ?_ hf)
        rintro rfl
        exact ha p rfl
      | reader hf =>
        exact hs.move (reader_move hk hadm hf) (load_of_onlyDeletes (onlyDeletes_reader hf))
      | background hb hp hw =>
        exact hs.keep hb.2 ((step_push ht).2.data fun w => hw w _) (load_of_onlyDeletes hb.1)

omit [DecidableEq W] in
/-- An answer is forwarded from the worker of its session, which has sent it. -/
theorem connected_step {s t : SessionTable.State P W Id} {a : SessionTable.Event P W Id}
    {st : Id → Option (Session P W)} {rd : P → List (Message Id)} {got : W → List (Frame Id)}
    (hc : ProxyPush s a t) (hk : Tracked s st rd)
    (hf : ∀ w id x cmd payload, s.reader w = .forwarding id x cmd payload →
      ⟨id, cmd, payload⟩ ∈ got w)
    (hs : ∀ p f, f ∈ proxyFrames s p → f.cmd = .connected →
      ∃ x, st f.id = some x ∧ x.proxy = p ∧ f ∈ got x.worker)
    {f : Frame Id} (hmem : f ∈ proxyFrames t p) (hcmd : f.cmd = .connected) :
    ∃ x, st f.id = some x ∧ x.proxy = p ∧ f ∈ got x.worker := by
  cases hc with
  | none h =>
    rw [h] at hmem
    exact hs p f hmem hcmd
  | @one q g hg h =>
    rw [h] at hmem
    rcases List.mem_append.mp hmem with hmem | hmem
    · exact hs p f hmem hcmd
    · split at hmem
      · rename_i hp
        cases List.mem_singleton.mp hmem
        cases hg with
        | plain hplain => rcases hplain with hplain | hplain <;> rw [hcmd] at hplain <;> cases hplain
        | @forwarded w x ha hw hxp =>
          obtain ⟨hst, hxw⟩ := hk.reader w f.id x (by rw [hw]; rfl)
          exact ⟨x, hst, hxp.trans hp.symm, by rw [hxw]; exact hf w f.id x f.cmd f.payload hw⟩
      · cases hmem

/-- A reader takes a frame only when one comes, and it is then in the history. -/
theorem got_frame_mem {cmd : Command} {payload : Payload} (h : step b e = some c)
    (he : e.onTable = .reader w (.frame id cmd payload)) : ⟨id, cmd, payload⟩ ∈ c.got w := by
  cases e with
  | proxyMessage p m => cases he
  | workerMessage v f =>
    cases he
    obtain ⟨t, -, rfl⟩ := Option.map_eq_some_iff.mp h
    show f ∈ Function.update b.got w (b.got w ++ [f]) w
    rw [Function.update_self]
    exact List.mem_append_right _ (List.mem_singleton_self f)
  | table a =>
    have hadm := (table_cases h).1
    rw [show a = .reader w (.frame id cmd payload) from he] at hadm
    cases hadm

theorem flows_step (hs : Flows watched b) (hfed : Fed watched b e) (h : step b e = some c) :
    Flows watched c := by
  have ht := step_onTable h
  have hst : ∀ {id : Id} {x : Session P W}, b.stored id = some x → c.stored id = some x :=
    fun hx => stored_mono hs.tracked h hx
  have hgot : ∀ {w : W} {f : Frame Id}, f ∈ b.got w → f ∈ c.got w := fun hf => (got_mono h _).subset hf
  obtain ⟨hwp, hpp⟩ := step_push ht
  have hcp := connects_push hwp hs.sending
  refine ⟨tracked_step hs.tracked hfed h, up_step hs.tracked hs.up hfed h,
    down_step hs.tracked hs.down hfed h, fun p id x cmd payload hp => ?_,
    fun w id x cmd payload hw => ?_, fun w f hf ho => ?_, fun p f hf hcmd => ?_,
    fun p id x target hp => connecting_step ht hcp hs.tracked hs.connect hs.connecting hp,
    once_step hcp hs.connecting hs.once⟩
  · rcases step_handler (q := p) ht with heq | ⟨f, -, hf⟩
    · rw [heq] at hp
      exact hs.sending p id x cmd payload hp
    · rcases (handler_origin hf).1 id x cmd payload hp with hp | hp
      · exact hs.sending p id x cmd payload hp
      · exact hp
  · rcases step_reader (v := w) ht with heq | ⟨f, he, hf⟩
    · rw [heq] at hw
      exact hgot (hs.forwarding w id x cmd payload hw)
    · rcases reader_origin hf hw with hw | rfl
      · exact hgot (hs.forwarding w id x cmd payload hw)
      · exact got_frame_mem h he
  · obtain ⟨x, hx, hrest⟩ := connect_step hcp hs.tracked hs.connect hf ho
    exact ⟨x, hst hx, hrest⟩
  · obtain ⟨x, hx, hp, hmem⟩ := connected_step hpp hs.tracked hs.forwarding hs.connected hf hcmd
    exact ⟨x, hst hx, hp, hgot hmem⟩

end Step

end SplitProxy.TableStreams
