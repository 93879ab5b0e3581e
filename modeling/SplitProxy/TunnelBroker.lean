import SplitProxy.TunnelProxies
import SplitProxy.TunnelWorkers

/-!
# The broker between the links

What the broker has read is what its websockets have delivered, and what its
writers have written is what they have taken from the channels. With the proxies'
and the workers' part this says where every frame has come from: data reaches a
worker only for a session it has stored.
-/
namespace SplitProxy.Tunnels

open Runs SessionTable
open TableStreams (Message framesOf dataFor workerFrames proxyFrames workerData proxyData)

variable {P W Id : Type} [DecidableEq P] [DecidableEq W] [DecidableEq Id]

/-! ## Only the writers take from the channels -/

section Taken

variable {s t u : SessionTable.State P W Id} {a : SessionTable.Event P W Id} {p : P} {w : W}
  {id : Id} {x : SessionTable.Session P W}

/-- Nothing has been taken from a channel between two states. -/
structure TakenSame (s t : SessionTable.State P W Id) : Prop where
  toWorker : ∀ w, (t.toWorker w).taken = (s.toWorker w).taken
  toProxy : ∀ p, (t.toProxy p).taken = (s.toProxy p).taken

omit [DecidableEq P] [DecidableEq Id] in
theorem takenSame_sendWorker {cmd : Command} {payload : Payload}
    (h : sendWorker s id x cmd payload = some u) (hw : t.toWorker = u.toWorker)
    (hp : t.toProxy = u.toProxy) : TakenSame s t := by
  unfold sendWorker at h
  split at h <;> cases h
  refine ⟨fun v => ?_, fun q => by rw [hp]⟩
  rw [hw]
  by_cases hv : v = x.worker
  · subst hv
    simp
  · simp [hv]

theorem takenSame_writeProxy {o : Option (SessionTable.Session P W)} {f : Frame Id} {ok : Bool}
    (h : writeProxy s p o f ok = some u) (hw : t.toWorker = u.toWorker)
    (hp : t.toProxy = u.toProxy) : TakenSame s t := by
  cases ok with
  | true =>
    simp only [writeProxy] at h
    split at h <;> cases h
    refine ⟨fun v => by rw [hw], fun q => ?_⟩
    rw [hp]
    by_cases hq : q = p
    · subst hq
      simp
    · simp [hq]
  | false =>
    simp only [writeProxy] at h
    split at h <;> cases h
    exact ⟨fun v => by rw [hw], fun q => by rw [hp]⟩

theorem takenSame_step (h : SessionTable.step s a = some t) (ha : isWriter a = false) :
    TakenSame s t := by
  cases a with
  | handler p f =>
    cases handlerStep_move h with
    | connectSent _ hu | dataSent _ hu | closeSent _ hu => exact takenSame_sendWorker hu rfl rfl
    | reported _ hu | refused _ hu => exact takenSame_writeProxy hu rfl rfl
    | _ => exact ⟨fun _ => rfl, fun _ => rfl⟩
  | reader w f =>
    cases readerStep_move h with
    | forwarded _ hu | closeForwarded _ hu => exact takenSame_writeProxy hu rfl rfl
    | _ => exact ⟨fun _ => rfl, fun _ => rfl⟩
  | close p f =>
    cases closeStep_move h with
    | _ => exact ⟨fun _ => rfl, fun _ => rfl⟩
  | removal w f =>
    cases removeStep_move h with
    | notified _ hu => exact takenSame_writeProxy hu rfl rfl
    | _ => exact ⟨fun _ => rfl, fun _ => rfl⟩
  | senderSent id x =>
    simp only [SessionTable.step] at h
    split at h
    · obtain ⟨u, hu, rfl⟩ := Option.map_eq_some_iff.mp h
      exact takenSame_sendWorker hu rfl rfl
    · cases h
  | senderAborted id x err =>
    simp only [SessionTable.step] at h
    split at h <;> cases h
    exact ⟨fun _ => rfl, fun _ => rfl⟩
  | workerWriter w | proxyWriter p => cases ha

end Taken

/-! ## The broker's part -/

/-- Everything that holds of the broker's part. -/
structure BrokerSide (udp : Id → Bool) (s : State P W Id) : Prop where
  flows : TableStreams.Flows (fun id => udp id = false) s.broker
  read : ∀ p, s.broker.read p = (s.up p).taken
  got : ∀ w, s.broker.got w = (s.toBroker w).taken
  down : ∀ p, Carries Enqueued.frame (s.broker.table.toProxy p) (s.down p) (s.proxyWriting p)
  toWorker : ∀ w,
    Carries Enqueued.frame (s.broker.table.toWorker w) (s.toWorker w) (s.workerWriting w)

omit [DecidableEq P] [DecidableEq W] in
theorem brokerSide_initial (udp : Id → Bool) : BrokerSide udp (initial P W Id) where
  flows := TableStreams.flows_initial _
  read := fun _ => rfl
  got := fun _ => rfl
  down := fun _ => carries_empty _ _
  toWorker := fun _ => carries_empty _ _

section BrokerSide

variable {udp : Id → Bool} {s t : State P W Id} {p : P} {w : W} {id : Id}

/-- What the broker and its websockets look like after a step that leaves them alone. -/
structure SameBroker (s t : State P W Id) : Prop where
  broker : t.broker = s.broker
  proxyWriting : t.proxyWriting = s.proxyWriting
  workerWriting : t.workerWriting = s.workerWriting
  up : ∀ p, (t.up p).taken = (s.up p).taken
  toBroker : ∀ w, (t.toBroker w).taken = (s.toBroker w).taken
  down : ∀ p, (t.down p).sent = (s.down p).sent
  toWorker : ∀ w, (t.toWorker w).sent = (s.toWorker w).sent

omit [DecidableEq P] [DecidableEq W] in
theorem BrokerSide.keep (hs : BrokerSide udp s) (h : SameBroker s t) : BrokerSide udp t where
  flows := by
    rw [h.broker]
    exact hs.flows
  read := fun p => by rw [h.broker, h.up, hs.read]
  got := fun w => by rw [h.broker, h.toBroker, hs.got]
  down := fun p => by
    rw [h.broker, h.proxyWriting]
    exact (hs.down p).congr rfl (h.down p)
  toWorker := fun w => by
    rw [h.broker, h.workerWriting]
    exact (hs.toWorker w).congr rfl (h.toWorker w)

/-- The channels after a step of the broker that is not a writer's. -/
theorem BrokerSide.channels {e : TableStreams.Event P W Id} {b : TableStreams.State P W Id}
    (hs : BrokerSide udp s) (h : TableStreams.step s.broker e = some b)
    (he : isWriter e.onTable = false) :
    (∀ p, Carries Enqueued.frame (b.table.toProxy p) (s.down p) (s.proxyWriting p)) ∧
      ∀ w, Carries Enqueued.frame (b.table.toWorker w) (s.toWorker w) (s.workerWriting w) := by
  have ht := takenSame_step (TableStreams.step_onTable h) he
  exact ⟨fun p => (hs.down p).congr (ht.toProxy p) rfl,
    fun w => (hs.toWorker w).congr (ht.toWorker w) rfl⟩

/-- `proxyHandler` reads a message. -/
theorem brokerSide_brokerRead (hs : BrokerSide udp s)
    (hfed : ∀ m d, (s.up p).pop = some (m, d) →
      TableStreams.Fed (fun id => udp id = false) s.broker (.proxyMessage p m))
    (h : step udp s (.brokerRead p) = some t) : BrokerSide udp t := by
  obtain ⟨⟨m, d⟩, hp, h⟩ := Option.bind_eq_some_iff.mp h
  obtain ⟨b, hb, rfl⟩ := Option.map_eq_some_iff.mp h
  have hch := hs.channels hb (by cases m <;> rfl)
  have htaken := taken_update hp
  refine ⟨TableStreams.flows_step hs.flows (hfed m d hp) hb, fun q => ?_, fun w => ?_, hch.1, hch.2⟩
  · show b.read q = (Function.update s.up p d q).taken
    obtain ⟨u, -, rfl⟩ := Option.map_eq_some_iff.mp hb
    rw [htaken, ← hs.read]
    show Function.update s.broker.read p (s.broker.read p ++ [m]) q = _
    by_cases hq : q = p
    · rw [hq, Function.update_self, if_pos rfl]
    · rw [Function.update_of_ne hq, if_neg hq, List.append_nil]
  · obtain ⟨u, -, rfl⟩ := Option.map_eq_some_iff.mp hb
    exact hs.got w

/-- `workerReader` reads a frame. -/
theorem brokerSide_brokerTake (hs : BrokerSide udp s)
    (hfed : ∀ f d, (s.toBroker w).pop = some (f, d) →
      TableStreams.Fed (fun id => udp id = false) s.broker (.workerMessage w f))
    (h : step udp s (.brokerTake w) = some t) : BrokerSide udp t := by
  obtain ⟨⟨f, d⟩, hp, h⟩ := Option.bind_eq_some_iff.mp h
  obtain ⟨b, hb, rfl⟩ := Option.map_eq_some_iff.mp h
  have hch := hs.channels hb rfl
  have htaken := taken_update hp
  refine ⟨TableStreams.flows_step hs.flows (hfed f d hp) hb, fun q => ?_, fun v => ?_, hch.1, hch.2⟩
  · obtain ⟨u, -, rfl⟩ := Option.map_eq_some_iff.mp hb
    exact hs.read q
  · show b.got v = (Function.update s.toBroker w d v).taken
    obtain ⟨u, -, rfl⟩ := Option.map_eq_some_iff.mp hb
    rw [htaken, ← hs.got]
    show Function.update s.broker.got w (s.broker.got w ++ [f]) v = _
    by_cases hv : v = w
    · rw [hv, Function.update_self, if_pos rfl]
    · rw [Function.update_of_ne hv, if_neg hv, List.append_nil]

/-- Everything else in the broker, its writers apart. -/
theorem brokerSide_broker {a : SessionTable.Event P W Id} (hs : BrokerSide udp s)
    (h : step udp s (.broker a) = some t) : BrokerSide udp t := by
  simp only [step] at h
  split at h
  · cases h
  · rename_i ha
    have ha : isWriter a = false := by simpa using ha
    obtain ⟨b, hb, rfl⟩ := Option.map_eq_some_iff.mp h
    have hch := hs.channels hb ha
    have hfed : TableStreams.Fed (fun id => udp id = false) s.broker (.table a) := trivial
    obtain ⟨-, -, hread, hgot, -⟩ := TableStreams.table_cases hb
    refine ⟨TableStreams.flows_step hs.flows hfed hb, fun q => ?_, fun v => ?_, hch.1, hch.2⟩
    · rw [← hs.read q, ← hread]
    · rw [← hs.got v, ← hgot]

/-- What a step of one writer changes: its channel, its websocket and whether it runs. -/
theorem BrokerSide.written {a : SessionTable.Event P W Id} {b : TableStreams.State P W Id}
    (hs : BrokerSide udp s) (hb : TableStreams.step s.broker (.table a) = some b)
    (ht : t.broker = b) (hup : t.up = s.up) (hto : t.toBroker = s.toBroker)
    (hdown : ∀ q, Carries Enqueued.frame (b.table.toProxy q) (t.down q) (t.proxyWriting q))
    (hworker : ∀ w, Carries Enqueued.frame (b.table.toWorker w) (t.toWorker w) (t.workerWriting w)) :
    BrokerSide udp t := by
  have hfed : TableStreams.Fed (fun id => udp id = false) s.broker (.table a) := trivial
  obtain ⟨-, -, hread, hgot, -⟩ := TableStreams.table_cases hb
  subst ht
  refine ⟨TableStreams.flows_step hs.flows hfed hb, fun q => ?_, fun v => ?_, hdown, hworker⟩
  · rw [hup, hread, hs.read]
  · rw [hto, hgot, hs.got]

/-- The writer of a proxy connection writes, or fails to. -/
theorem brokerSide_proxyWriter {ok : Bool} (hs : BrokerSide udp s)
    (h : step udp s (.proxyWriter p ok) = some t) : BrokerSide udp t := by
  simp only [step] at h
  split at h
  · rename_i hw
    obtain ⟨⟨f, d⟩, hp, h⟩ := Option.bind_eq_some_iff.mp h
    obtain ⟨b, hb, rfl⟩ := Option.map_eq_some_iff.mp h
    obtain ⟨r, hr, ht⟩ := Option.map_eq_some_iff.mp (TableStreams.table_cases hb).2.1
    have hr : (s.broker.table.toProxy p).pop = some r := hr
    rw [hp] at hr
    cases hr
    have hproxy : b.table.toProxy = Function.update s.broker.table.toProxy p d := by rw [← ht]
    have hworker : b.table.toWorker = s.broker.table.toWorker := by rw [← ht]
    cases ok with
    | true =>
      refine hs.written hb rfl rfl rfl (fun q => ?_) fun v => ?_
      · rw [hproxy]
        exact carries_write hs.down hw hp q
      · rw [hworker]
        exact hs.toWorker v
    | false =>
      refine hs.written hb rfl rfl rfl (fun q => ?_) fun v => ?_
      · rw [hproxy]
        exact carries_lose hs.down hp q
      · rw [hworker]
        exact hs.toWorker v
  · cases h

/-- The writer of a worker writes, or fails to. -/
theorem brokerSide_workerWriter {ok : Bool} (hs : BrokerSide udp s)
    (h : step udp s (.workerWriter w ok) = some t) : BrokerSide udp t := by
  simp only [step] at h
  split at h
  · rename_i hw
    obtain ⟨⟨f, d⟩, hp, h⟩ := Option.bind_eq_some_iff.mp h
    obtain ⟨b, hb, rfl⟩ := Option.map_eq_some_iff.mp h
    obtain ⟨r, hr, ht⟩ := Option.map_eq_some_iff.mp (TableStreams.table_cases hb).2.1
    have hr : (s.broker.table.toWorker w).pop = some r := hr
    rw [hp] at hr
    cases hr
    have hworker : b.table.toWorker = Function.update s.broker.table.toWorker w d := by rw [← ht]
    have hproxy : b.table.toProxy = s.broker.table.toProxy := by rw [← ht]
    cases ok with
    | true =>
      refine hs.written hb rfl rfl rfl (fun q => ?_) fun v => ?_
      · rw [hproxy]
        exact hs.down q
      · rw [hworker]
        exact carries_write hs.toWorker hw hp v
    | false =>
      refine hs.written hb rfl rfl rfl (fun q => ?_) fun v => ?_
      · rw [hproxy]
        exact hs.down q
      · rw [hworker]
        exact carries_lose hs.toWorker hp v
  · cases h

end BrokerSide

end SplitProxy.Tunnels
