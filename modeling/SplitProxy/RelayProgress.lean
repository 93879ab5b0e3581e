import SplitProxy.QueueNet
import SplitProxy.RelayInvariant

/-!
# The relay chain keeps moving

The queues and websockets of the chain as a network of bounded queues. They are
ranked against the direction in which their consumers wait: from the proxy's
`writeCh` over the broker and the worker back to the websocket `readLoop` reads,
and `readLoop` never waits for anybody.
-/
namespace SplitProxy.RelayChain

open Runs
open SessionTable (BrokerRequest workerQueueSize proxyQueueSize)
open WorkerProcess (SessionId parseFrame)

inductive Queue (P W : Type) where
  | writeCh (p : P)
  | toBroker (p : P)
  /-- `Worker.send` -/
  | workerSend (w : W)
  | toWorker (w : W)
  /-- `send` of the worker's connection -/
  | brokerSend (w : W)
  | fromWorker (w : W)
  /-- `ProxyConnection.send` -/
  | proxySend (p : P)
  | toProxy (p : P)

inductive Goroutine (P W : Type) where
  | handleBroker (p : P) (i : Nat)
  | clientReader (p : P) (i : Nat)
  | udpRelay (p : P) (i : Nat)
  | writeLoop (p : P)
  | readLoop (p : P)
  | proxyHandler (p : P)
  | proxyWriter (p : P)
  | workerWriter (w : W)
  | workerReader (w : W)
  | connection (w : W)
  | brokerWriter (w : W)
  | opener (w : W) (i : Nat)
  | targetReader (w : W) (i : Nat)

/-- The step ends a wait by the timer of `sendToWorker`, or by a `done` that is closed. -/
def aborts {W : Type} : SessionTable.HandlerEvent W SessionId → Bool
  | .connectAborted _ | .dataAborted _ | .closeAborted _ => true
  | _ => false

/-- The goroutine that takes the step, where the step needs no timer, no client
and no target. -/
def Event.mover {P W : Type} : Event P W → Option (Goroutine P W)
  | .writeLoopTake p | .writeLoopWrite p => some (.writeLoop p)
  | .readLoopReceive p | .readLoop p _ => some (.readLoop p)
  | .handlerReceive p => some (.proxyHandler p)
  | .handler p e => if aborts e then none else some (.proxyHandler p)
  | .proxyWriterTake p | .proxyWriterWrite p => some (.proxyWriter p)
  | .workerWriterTake w | .workerWriterWrite w => some (.workerWriter w)
  | .readerReceive w | .reader w _ => some (.workerReader w)
  | .connectionReceive w | .connection w _ => some (.connection w)
  | .brokerWriterTake w | .brokerWriterWrite w => some (.brokerWriter w)
  | _ => none

variable {P W : Type} [DecidableEq P] [DecidableEq W]

def queueLength (s : State P W) : Queue P W → Nat
  | .writeCh p => (s.proxy p).writeCh.length
  | .toBroker p => (s.toBroker p).length
  | .workerSend w => (s.table.toWorker w).queue.length
  | .toWorker w => (s.toWorker w).length
  | .brokerSend w => ((s.worker w).links 0).send.queue.length
  | .fromWorker w => (s.fromWorker w).length
  | .proxySend p => (s.table.toProxy p).queue.length
  | .toProxy p => (s.toProxy p).length

def queueCapacity (c : Capacities P W) : Queue P W → Nat
  | .writeCh _ => writeQueueSize
  | .toBroker p => c.toBroker p
  | .workerSend _ => workerQueueSize
  | .toWorker w => c.toWorker w
  | .brokerSend _ => brokerWriteQueue
  | .fromWorker w => c.fromWorker w
  | .proxySend _ => proxyQueueSize
  | .toProxy p => c.toProxy p

def consumer : Queue P W → Goroutine P W
  | .writeCh p => .writeLoop p
  | .toBroker p => .proxyHandler p
  | .workerSend w => .workerWriter w
  | .toWorker w => .connection w
  | .brokerSend w => .brokerWriter w
  | .fromWorker w => .workerReader w
  | .proxySend p => .proxyWriter p
  | .toProxy p => .readLoop p

/-- Every blocking send of the three programs. -/
def sendsTo (s : State P W) : Goroutine P W → Option (Queue P W)
  | .handleBroker p i =>
    ((s.proxy p).entries[i]?).bind fun x =>
      match x.session.handler with
      | .sendRequest | .closeSend => some (.writeCh p)
      | _ => none
  | .clientReader p i =>
    ((s.proxy p).entries[i]?).bind fun x =>
      match x.session.client with
      | .sending _ => some (.writeCh p)
      | _ => none
  | .udpRelay p i =>
    ((s.proxy p).entries[i]?).bind fun x => x.datagram.map fun _ => .writeCh p
  | .writeLoop p => (s.proxy p).writing.map fun _ => .toBroker p
  | .readLoop _ => none
  | .proxyHandler p =>
    match s.table.handler p with
    | .connecting _ x _ | .sending _ x _ _ | .sendingClose _ x => some (.workerSend x.worker)
    | .reporting _ _ _ | .refusing _ _ => some (.proxySend p)
    | _ => none
  | .proxyWriter p => (s.proxyWriting p).map fun _ => .toProxy p
  | .workerWriter w => (s.workerWriting w).map fun _ => .toWorker w
  | .workerReader w =>
    match s.table.reader w with
    | .forwarding _ x _ _ | .forwardingClose _ x _ => some (.proxySend x.proxy)
    | _ => none
  | .connection w =>
    match (s.worker w).loop with
    | .sendClose _ => some (.brokerSend w)
    | _ => none
  | .brokerWriter w => (s.brokerWriting w).map fun _ => .fromWorker w
  | .opener w i =>
    ((s.worker w).opens[i]?).bind fun x =>
      match x.opener with
      | .sendConnected | .sendClose => some (.brokerSend w)
      | _ => none
  | .targetReader w i =>
    match ((s.worker w).streams i).reader with
    | .send _ _ | .sendClose => some (.brokerSend w)
    | _ => none

def net (c : Capacities P W) (s : State P W) : QueueNet (Queue P W) (Goroutine P W) where
  length := queueLength s
  capacity := queueCapacity c
  consumer := consumer
  sendsTo := sendsTo s
  enabled := fun g => ∃ e : Event P W, e.mover = some g ∧ (step c s e).isSome = true

def rank : Queue P W → Nat
  | .toProxy _ => 0
  | .proxySend _ => 1
  | .fromWorker _ => 2
  | .brokerSend _ => 3
  | .toWorker _ => 4
  | .workerSend _ => 5
  | .toBroker _ => 6
  | .writeCh _ => 7

/-- The goroutine can move, or waits for a full queue of rank below `n`. -/
def Free (c : Capacities P W) (s : State P W) (n : Nat) (g : Goroutine P W) : Prop :=
  (net c s).enabled g ∨ ∃ r, sendsTo s g = some r ∧ (net c s).Full r ∧ rank r < n

/-! ## The proxy -/

namespace Proxy

variable {s : Proxy} {x : Entry} {i : Nat} {e : ProxySession.Event}

/-- `readLoop` never blocks on a frame: every send in its switch has a default. -/
theorem handles_enabled {x : ProxySession.Session} (h : x.loop ≠ .idle) :
    ∃ e, handles e = true ∧ (ProxySession.step x e).isSome = true := by
  cases hl : x.loop with
  | idle => exact absurd hl h
  | closing err => exact ⟨.loopClose, rfl, by simp [ProxySession.step, hl]⟩
  | handling cmd payload =>
    have hdata : cmd.carriesData = true →
        ∃ e, handles e = true ∧ (ProxySession.step x e).isSome = true := by
      intro hc
      by_cases hroom : x.data.queue.length < ProxySession.dataQueueSize
      · exact ⟨.queueData, rfl, by simp [ProxySession.step, hl, hc, hroom]⟩
      · cases hdone : x.done with
        | true => exact ⟨.dropData, rfl, by simp [ProxySession.step, hl, hc, hdone]⟩
        | false => exact ⟨.overflow, rfl, by simp [ProxySession.step, hl, hc, hdone, hroom]⟩
    cases cmd with
    | data => exact hdata rfl
    | udpData => exact hdata rfl
    | connected => exact ⟨.signalConnected, rfl, by simp [ProxySession.step, hl]⟩
    | close => exact ⟨.remoteEnd, rfl, by simp [ProxySession.step, hl]⟩
    | error => exact ⟨.remoteEnd, rfl, by simp [ProxySession.step, hl]⟩
    | connect => exact ⟨.ignoreFrame, rfl, by simp [ProxySession.step, hl]⟩
    | udpConnect => exact ⟨.ignoreFrame, rfl, by simp [ProxySession.step, hl]⟩
    | unknown code => exact ⟨.ignoreFrame, rfl, by simp [ProxySession.step, hl]⟩

theorem apply_isSome (hx : s.entries[i]? = some x)
    (h : (ProxySession.step x.session e).isSome = true) : (s.apply i e).isSome = true := by
  simp only [apply, hx, Option.isSome_map]
  exact h

theorem Inv.handle_enabled (hs : Inv s) (hi : s.readLoop = some i) :
    ∃ e, (s.handle e).isSome = true := by
  have hbusy := (hs i).mp hi
  cases hx : s.entries[i]? with
  | none => simp [loopAt, hx] at hbusy
  | some x =>
    rw [loopAt_eq hx] at hbusy
    obtain ⟨e, he, hstep⟩ := handles_enabled hbusy
    refine ⟨e, ?_⟩
    simp only [Proxy.handle, hi, Option.bind_some, he, if_true, Option.isSome_map]
    exact apply_isSome hx hstep

theorem Inv.receive_enabled (hs : Inv s) (hnone : s.readLoop = none) (msg : Payload) :
    (s.receive msg).isSome = true := by
  unfold Proxy.receive
  rw [if_pos hnone]
  split
  · rfl
  · rename_i f hf
    split
    · rfl
    · rename_i i hi
      obtain ⟨hlt, hreg, -⟩ := List.findIdx?_eq_some_iff_getElem.mp hi
      have hx : s.entries[i]? = some s.entries[i] := List.getElem?_eq_getElem hlt
      have hidle := hs.idle hnone i
      rw [loopAt_eq hx] at hidle
      rw [Bool.and_eq_true] at hreg
      rw [Option.isSome_map]
      exact apply_isSome hx (by simp [ProxySession.step, hreg.1, hidle])

end Proxy

/-! ## The broker -/

section Broker

open SessionTable (handlerStep readerStep)

variable {s : State P W} {p : P} {w : W} {c : Capacities P W}

theorem handler_moves {e : SessionTable.HandlerEvent W SessionId} (he : inHandler e = true)
    (ha : aborts e = false) (h : (handlerStep s.table p e).isSome = true) :
    (net c s).enabled (.proxyHandler p) := by
  refine ⟨.handler p e, by simp [Event.mover, ha], ?_⟩
  simp only [step, he, if_true, onTable, Option.isSome_map]
  exact h

/-- `sendToWorker` and `write` go through, or their channel is full. -/
theorem handler_sendWorker {e : SessionTable.HandlerEvent W SessionId} {w : W}
    (he : inHandler e = true) (ha : aborts e = false)
    (hsend : sendsTo s (.proxyHandler p) = some (.workerSend w))
    (h : (s.table.toWorker w).queue.length < workerQueueSize →
      (handlerStep s.table p e).isSome = true) : Free c s 6 (.proxyHandler p) := by
  by_cases hroom : (s.table.toWorker w).queue.length < workerQueueSize
  · exact Or.inl (handler_moves he ha (h hroom))
  · exact Or.inr ⟨.workerSend w, hsend, Nat.le_of_not_lt hroom, by simp [rank]⟩

theorem handler_writeProxy {e : SessionTable.HandlerEvent W SessionId} (he : inHandler e = true)
    (ha : aborts e = false) (hsend : sendsTo s (.proxyHandler p) = some (.proxySend p))
    (h : (s.table.toProxy p).queue.length < proxyQueueSize →
      (handlerStep s.table p e).isSome = true) : Free c s 6 (.proxyHandler p) := by
  by_cases hroom : (s.table.toProxy p).queue.length < proxyQueueSize
  · exact Or.inl (handler_moves he ha (h hroom))
  · exact Or.inr ⟨.proxySend p, hsend, Nat.le_of_not_lt hroom, by simp [rank]⟩

theorem handlerReceive_isSome (hpc : s.table.handler p = .reading) (hmsg : s.toBroker p ≠ []) :
    (handlerReceive s p).isSome = true := by
  unfold handlerReceive
  split
  · contradiction
  · rename_i m rest hm
    cases m with
    | text req =>
      simp only [onTable, SessionTable.step, SessionTable.handlerStep, hpc, if_true,
        Option.isSome_map]
      split <;> rfl
    | binary msg =>
      dsimp only
      split
      · simp [hpc]
      · simp only [onTable, SessionTable.step, SessionTable.handlerStep, hpc, if_true,
          Option.isSome_map]
        repeat' split
        all_goals rfl

theorem handler_free (hs : Serving s.table) (hmsg : s.toBroker p ≠ []) :
    Free c s 6 (.proxyHandler p) := by
  cases hpc : s.table.handler p with
  | returned => exact absurd hpc (hs.handler p)
  | reading =>
    exact Or.inl ⟨.handlerReceive p, rfl, handlerReceive_isSome hpc hmsg⟩
  | checked req =>
    exact Or.inl (@handler_moves _ _ _ _ s p c (.getWorker none) rfl rfl
      (by simp [SessionTable.handlerStep, hpc]))
  | selected req w =>
    exact Or.inl (@handler_moves _ _ _ _ s p c .store rfl rfl
      (by simp [SessionTable.handlerStep, hpc]))
  | connecting id x target =>
    refine @handler_sendWorker _ _ _ _ s p c .connectSent x.worker rfl rfl
      (by simp [sendsTo, hpc]) fun hroom => ?_
    simp [SessionTable.handlerStep, hpc, SessionTable.sendWorker, hroom]
  | connectFailed id x err =>
    exact Or.inl (@handler_moves _ _ _ _ s p c .connectDelete rfl rfl
      (by simp [SessionTable.handlerStep, hpc]))
  | reporting id x err =>
    refine @handler_writeProxy _ _ _ _ s p c (.reported true) rfl rfl
      (by simp [sendsTo, hpc]) fun hroom => ?_
    simp [SessionTable.handlerStep, hpc, SessionTable.writeProxy, hroom]
  | sending id x cmd payload =>
    refine @handler_sendWorker _ _ _ _ s p c .dataSent x.worker rfl rfl
      (by simp [sendsTo, hpc]) fun hroom => ?_
    simp [SessionTable.handlerStep, hpc, SessionTable.sendWorker, hroom]
  | sendFailed id x err =>
    exact Or.inl (@handler_moves _ _ _ _ s p c .dataDelete rfl rfl
      (by simp [SessionTable.handlerStep, hpc]))
  | refusing id x =>
    refine @handler_writeProxy _ _ _ _ s p c (.refused true) rfl rfl
      (by simp [sendsTo, hpc]) fun hroom => ?_
    simp [SessionTable.handlerStep, hpc, SessionTable.writeProxy, hroom]
  | sendingClose id x =>
    refine @handler_sendWorker _ _ _ _ s p c .closeSent x.worker rfl rfl
      (by simp [sendsTo, hpc]) fun hroom => ?_
    simp [SessionTable.handlerStep, hpc, SessionTable.sendWorker, hroom]
  | closing id x =>
    exact Or.inl (@handler_moves _ _ _ _ s p c .closeDelete rfl rfl
      (by simp [SessionTable.handlerStep, hpc]))

theorem reader_moves {e : SessionTable.ReaderEvent SessionId} (he : inReader e = true)
    (h : (readerStep s.table w e).isSome = true) : (net c s).enabled (.workerReader w) := by
  refine ⟨.reader w e, rfl, ?_⟩
  simp only [step, he, if_true, onTable, Option.isSome_map]
  exact h

theorem reader_writeProxy {e : SessionTable.ReaderEvent SessionId} {p : P} (he : inReader e = true)
    (hsend : sendsTo s (.workerReader w) = some (.proxySend p))
    (h : (s.table.toProxy p).queue.length < proxyQueueSize →
      (readerStep s.table w e).isSome = true) : Free c s 2 (.workerReader w) := by
  by_cases hroom : (s.table.toProxy p).queue.length < proxyQueueSize
  · exact Or.inl (reader_moves he (h hroom))
  · exact Or.inr ⟨.proxySend p, hsend, Nat.le_of_not_lt hroom, by simp [rank]⟩

theorem readerReceive_isSome (hpc : s.table.reader w = .reading) (hmsg : s.fromWorker w ≠ []) :
    (readerReceive s w).isSome = true := by
  unfold readerReceive
  split
  · contradiction
  · dsimp only
    split
    · simp [hpc]
    · simp only [onTable, SessionTable.step, SessionTable.readerStep, hpc, if_true,
        Option.isSome_map]
      repeat' split
      all_goals rfl

theorem reader_free (hs : Serving s.table) (hmsg : s.fromWorker w ≠ []) :
    Free c s 2 (.workerReader w) := by
  cases hpc : s.table.reader w with
  | returned => exact absurd hpc (hs.reader w)
  | reading => exact Or.inl ⟨.readerReceive w, rfl, readerReceive_isSome hpc hmsg⟩
  | forwarding id x cmd payload =>
    refine @reader_writeProxy _ _ _ _ s w c (.forwarded true) x.proxy rfl
      (by simp [sendsTo, hpc]) fun hroom => ?_
    simp [SessionTable.readerStep, hpc, SessionTable.writeProxy, hroom]
  | writeFailed id x =>
    exact Or.inl (@reader_moves _ _ _ _ s w c .failDelete rfl
      (by simp [SessionTable.readerStep, hpc]))
  | forwardingClose id x payload =>
    refine @reader_writeProxy _ _ _ _ s w c (.closeForwarded true) x.proxy rfl
      (by simp [sendsTo, hpc]) fun hroom => ?_
    simp [SessionTable.readerStep, hpc, SessionTable.writeProxy, hroom]
  | closing id x =>
    exact Or.inl (@reader_moves _ _ _ _ s w c .closeDelete rfl
      (by simp [SessionTable.readerStep, hpc]))

end Broker

/-! ## The worker -/

section Connection

variable {s : State P W} {w : W} {c : Capacities P W}

theorem connection_moves {e : WorkerProcess.LoopEvent} (he : inConnection e = true)
    (h : (WorkerProcess.loopStep (s.worker w) e).isSome = true) :
    (net c s).enabled (.connection w) := by
  refine ⟨.connection w e, rfl, ?_⟩
  simp only [step, he, if_true, onWorker, Option.isSome_map]
  exact h

theorem connectionReceive_isSome (hpc : (s.worker w).loop = .reading) (hmsg : s.toWorker w ≠ []) :
    (step c s (.connectionReceive w)).isSome = true := by
  simp only [step]
  split
  · contradiction
  · simp only [onWorker, WorkerProcess.step, WorkerProcess.loopStep, hpc, if_true,
      Option.isSome_map]
    repeat' split
    all_goals rfl

theorem connection_free (hs : Working (s.worker w)) (hmsg : s.toWorker w ≠ []) :
    Free c s 4 (.connection w) := by
  have hloop := hs.loop
  cases hpc : (s.worker w).loop with
  | leaving | scanning | returned =>
    rw [hpc] at hloop
    cases hloop
  | reading => exact Or.inl ⟨.connectionReceive w, rfl, connectionReceive_isSome hpc hmsg⟩
  | dispatch f =>
    exact Or.inl (@connection_moves _ _ _ _ s w c .dispatch rfl
      (by simp [WorkerProcess.loopStep, hpc]))
  | enqueue i id payload =>
    -- the three cases of the select in `enqueueSessionWrite`
    by_cases hroom : ((s.worker w).streams i).writeCh.length < WorkerSession.sessionWriteQueue
    · exact Or.inl (@connection_moves _ _ _ _ s w c .queue rfl
        (by simp [WorkerProcess.loopStep, hpc, hroom]))
    · cases hdone : ((s.worker w).links (s.worker w).link).done ||
          ((s.worker w).opens[i]?).any WorkerProcess.isDone with
      | true =>
        exact Or.inl (@connection_moves _ _ _ _ s w c .drop rfl
          (by simp only [WorkerProcess.loopStep, hpc, hdone, if_true, Option.isSome_some]))
      | false =>
        exact Or.inl (@connection_moves _ _ _ _ s w c .full rfl
          (by simp only [WorkerProcess.loopStep, hpc, hdone, Nat.le_of_not_lt hroom, and_self,
            if_true, Option.isSome_some]))
  | overflow id =>
    refine Or.inl (@connection_moves _ _ _ _ s w c .next rfl ?_)
    simp only [WorkerProcess.loopStep, hpc]
    split <;> rfl
  | closing i id who =>
    obtain ⟨x, hx, -⟩ := hs.inv.closing i id who hpc
    refine Or.inl (@connection_moves _ _ _ _ s w c .next rfl ?_)
    simp only [WorkerProcess.loopStep, hpc, hx]
    split <;> rfl
  | deleting i id who =>
    exact Or.inl (@connection_moves _ _ _ _ s w c .next rfl
      (by simp [WorkerProcess.loopStep, hpc]))
  | sendClose id =>
    by_cases hroom : ((s.worker w).links 0).send.queue.length < brokerWriteQueue
    · exact Or.inl (@connection_moves _ _ _ _ s w c (.send true) rfl
        (by simp [WorkerProcess.loopStep, hpc, WorkerProcess.State.sendPacket, hs.link, hroom]))
    · exact Or.inr ⟨.brokerSend w, by simp [sendsTo, hpc], Nat.le_of_not_lt hroom, by simp [rank]⟩

end Connection

/-! ## The chain -/

variable {s : State P W} {c : Capacities P W}

/-- A writer goroutine takes from its queue, or writes what it has, or waits for
the websocket. -/
theorem writer_free {n : Nat} {g : Goroutine P W} {q : Queue P W} {take write : Event P W}
    {α : Type} {held : Option α} (htake : take.mover = some g) (hwrite : write.mover = some g)
    (hsend : sendsTo s g = held.map fun _ => q)
    (hnone : held = none → (step c s take).isSome = true)
    (hsome : ∀ m, held = some m → queueLength s q < queueCapacity c q →
      (step c s write).isSome = true) (hrank : rank q < n) : Free c s n g := by
  cases hh : held with
  | none => exact Or.inl ⟨take, htake, hnone hh⟩
  | some m =>
    by_cases hroom : queueLength s q < queueCapacity c q
    · exact Or.inl ⟨write, hwrite, hsome m hh hroom⟩
    · rw [hh] at hsend
      exact Or.inr ⟨q, hsend, Nat.le_of_not_lt hroom, hrank⟩

theorem writeLoop_free {p : P} (hq : (s.proxy p).writeCh ≠ []) : Free c s 7 (.writeLoop p) := by
  obtain ⟨m, rest, hm⟩ := List.exists_cons_of_ne_nil hq
  refine @writer_free _ _ _ _ s c _ _ (.toBroker p) (.writeLoopTake p) (.writeLoopWrite p) _
    (s.proxy p).writing rfl rfl rfl (fun hnone => ?_) (fun msg hsome hroom => ?_) (by simp [rank])
  · simp [step, hnone, hm]
  · simp only [queueLength, queueCapacity] at hroom
    simp [step, hsome, hroom]

theorem proxyWriter_free {p : P} (hq : (s.table.toProxy p).queue ≠ []) :
    Free c s 1 (.proxyWriter p) := by
  obtain ⟨f, rest, hf⟩ := List.exists_cons_of_ne_nil hq
  obtain ⟨d, hd⟩ := Fifo.pop_of_queue hf
  refine @writer_free _ _ _ _ s c _ _ (.toProxy p) (.proxyWriterTake p) (.proxyWriterWrite p) _
    (s.proxyWriting p) rfl rfl rfl (fun hnone => ?_) (fun msg hsome hroom => ?_) (by simp [rank])
  · simp [step, proxyWriterTake, hnone, hf, onTable, SessionTable.step, hd]
  · simp only [queueLength, queueCapacity] at hroom
    simp [step, hsome, hroom]

theorem workerWriter_free {w : W} (hq : (s.table.toWorker w).queue ≠ []) :
    Free c s 5 (.workerWriter w) := by
  obtain ⟨f, rest, hf⟩ := List.exists_cons_of_ne_nil hq
  obtain ⟨d, hd⟩ := Fifo.pop_of_queue hf
  refine @writer_free _ _ _ _ s c _ _ (.toWorker w) (.workerWriterTake w) (.workerWriterWrite w) _
    (s.workerWriting w) rfl rfl rfl (fun hnone => ?_) (fun msg hsome hroom => ?_) (by simp [rank])
  · simp [step, workerWriterTake, hnone, hf, onTable, SessionTable.step, hd]
  · simp only [queueLength, queueCapacity] at hroom
    simp [step, hsome, hroom]

theorem brokerWriter_free {w : W} (hs : Working (s.worker w))
    (hq : ((s.worker w).links 0).send.queue ≠ []) : Free c s 3 (.brokerWriter w) := by
  obtain ⟨f, rest, hf⟩ := List.exists_cons_of_ne_nil hq
  obtain ⟨d, hd⟩ := Fifo.pop_of_queue hf
  refine @writer_free _ _ _ _ s c _ _ (.fromWorker w) (.brokerWriterTake w) (.brokerWriterWrite w) _
    (s.brokerWriting w) rfl rfl rfl (fun hnone => ?_) (fun msg hsome hroom => ?_) (by simp [rank])
  · simp [step, brokerWriterTake, hnone, hf, onWorker, WorkerProcess.step, hs.writing, hd]
  · simp only [queueLength, queueCapacity] at hroom
    simp [step, hsome, hroom]

theorem readLoop_enabled {p : P} (hs : (s.proxy p).Inv) (hq : s.toProxy p ≠ []) :
    (net c s).enabled (.readLoop p) := by
  cases hread : (s.proxy p).readLoop with
  | none =>
    obtain ⟨msg, rest, hm⟩ := List.exists_cons_of_ne_nil hq
    refine ⟨.readLoopReceive p, rfl, ?_⟩
    simp only [step, hm, Option.isSome_map]
    exact hs.receive_enabled hread msg
  | some i =>
    obtain ⟨e, he⟩ := hs.handle_enabled hread
    refine ⟨.readLoop p e, rfl, ?_⟩
    simp only [step, Option.isSome_map]
    exact he

theorem ordered (hs : Inv s) : (net c s).Ordered rank := by
  have hne : ∀ {α : Type} {l : List α}, 0 < l.length → l ≠ [] :=
    fun h => List.length_pos_iff.mp h
  refine ⟨fun q => ?_, fun q hq => ?_⟩
  · cases q with
    | writeCh p => show 0 < writeQueueSize; decide
    | toBroker p => exact c.toBroker_pos p
    | workerSend w => show 0 < workerQueueSize; decide
    | toWorker w => exact c.toWorker_pos w
    | brokerSend w => show 0 < brokerWriteQueue; decide
    | fromWorker w => exact c.fromWorker_pos w
    | proxySend p => show 0 < proxyQueueSize; decide
    | toProxy p => exact c.toProxy_pos p
  · cases q with
    | writeCh p => exact writeLoop_free (hne hq)
    | toBroker p => exact handler_free hs.table (hne hq)
    | workerSend w => exact workerWriter_free (hne hq)
    | toWorker w => exact connection_free (hs.worker w) (hne hq)
    | brokerSend w => exact brokerWriter_free (hs.worker w) (hne hq)
    | fromWorker w => exact reader_free hs.table (hne hq)
    | proxySend p => exact proxyWriter_free (hne hq)
    | toProxy p => exact Or.inl (readLoop_enabled (hs.proxy p) (hne hq))

/-- While a message waits anywhere in the chain, some goroutine of it can move
without the timer, a client or a target. -/
theorem never_deadlocks (c : Capacities P W) {s : State P W}
    (h : Reachable (step c) (· = initial P W) s) (hbusy : (net c s).Busy) :
    ∃ (g : Goroutine P W) (e : Event P W), e.mover = some g ∧ (step c s e).isSome = true := by
  have hs := reachable_invariant (fun s hs => by rw [hs]; exact inv_initial)
    (fun s e t => inv_step) h
  exact (ordered hs).progress hbusy

/-- One proxy and one worker on websockets that hold one message each. -/
def oneEach : Capacities Unit Unit where
  toBroker := fun _ => 1
  toProxy := fun _ => 1
  toWorker := fun _ => 1
  fromWorker := fun _ => 1
  toBroker_pos := fun _ => Nat.one_pos
  toProxy_pos := fun _ => Nat.one_pos
  toWorker_pos := fun _ => Nat.one_pos
  fromWorker_pos := fun _ => Nat.one_pos

/-- The request of the session `n`, under an id of its own. -/
def request (n : Nat) : BrokerRequest SessionId :=
  ⟨⟨List.replicate 34 0 ++ [UInt8.ofNat (n / 256), UInt8.ofNat n], rfl⟩, .tcp, [], []⟩

/-- What one more call of `openSession` leaves: a session about to send its request. -/
theorem exists_opened (s : State Unit Unit) (req : BrokerRequest SessionId) : ∃ t,
    step oneEach s (.openSession () req) = some t ∧
      (t.proxy ()).entries[(s.proxy ()).entries.length]? =
        some ⟨req, ProxySession.stored, none⟩ ∧
      (t.proxy ()).writeCh = (s.proxy ()).writeCh ∧
      (t.proxy ()).writing = (s.proxy ()).writing ∧ t.toBroker = s.toBroker := by
  refine ⟨_, rfl, ?_, rfl, rfl, rfl⟩
  have hlength : ((s.proxy ()).unregister req.id).entries.length =
      (s.proxy ()).entries.length := List.length_map ..
  rw [← hlength]
  exact List.getElem?_concat_length

/-- While `writeCh` has room the request gets into it. -/
theorem exists_sent {s : State Unit Unit} {n : Nat} {req : BrokerRequest SessionId}
    (hn : (s.proxy ()).entries[n]? = some ⟨req, ProxySession.stored, none⟩)
    (hroom : (s.proxy ()).writeCh.length < writeQueueSize) : ∃ t,
    step oneEach s (.session () n .requestSent) = some t ∧
      (t.proxy ()).writeCh = (s.proxy ()).writeCh ++ [Message.text req] ∧
      (t.proxy ()).writing = (s.proxy ()).writing ∧ t.toBroker = s.toBroker := by
  obtain ⟨x, hx, hqueue, hwriting⟩ : ∃ x, (s.proxy ()).ownStep n .requestSent = some x ∧
      x.writeCh = (s.proxy ()).writeCh ++ [Message.text req] ∧ x.writing = (s.proxy ()).writing := by
    simp [Proxy.ownStep, hn, Proxy.own, Proxy.send, Proxy.sends, hroom, Proxy.apply,
      ProxySession.step, ProxySession.stored, Proxy.deletes, Proxy.set]
  exact ⟨setProxy s () x, by rw [step, hx]; rfl, hqueue, hwriting, rfl⟩

theorem exists_asked {s : State Unit Unit} (hroom : (s.proxy ()).writeCh.length < writeQueueSize) :
    ∃ es t, run (step oneEach) s es = some t ∧
      (t.proxy ()).writeCh.length = (s.proxy ()).writeCh.length + 1 ∧
      (t.proxy ()).writing = (s.proxy ()).writing ∧ t.toBroker = s.toBroker := by
  obtain ⟨m, hm, hn, hqueue, hwriting, hsocket⟩ :=
    exists_opened s (request (s.proxy ()).entries.length)
  obtain ⟨t, ht, hqueue', hwriting', hsocket'⟩ := exists_sent hn (by rwa [hqueue])
  have hrun : run (step oneEach) s
      [.openSession () (request (s.proxy ()).entries.length),
        .session () (s.proxy ()).entries.length .requestSent] = some t := by
    simp only [run_cons, hm, Option.bind_some, ht, run_nil]
  refine ⟨_, t, hrun, ?_, hwriting'.trans hwriting, hsocket'.trans hsocket⟩
  rw [hqueue', hqueue]
  exact List.length_append

/-- As many requests as there is room for can wait in `writeCh`. -/
theorem exists_filled (k : Nat) {s : State Unit Unit}
    (hroom : (s.proxy ()).writeCh.length + k ≤ writeQueueSize) :
    ∃ es t, run (step oneEach) s es = some t ∧
      (t.proxy ()).writeCh.length = (s.proxy ()).writeCh.length + k ∧
      (t.proxy ()).writing = (s.proxy ()).writing ∧ t.toBroker = s.toBroker := by
  induction k with
  | zero => exact ⟨[], s, rfl, rfl, rfl, rfl⟩
  | succ k ih =>
    obtain ⟨es, m, hm, hlength, hwriting, hsocket⟩ := ih (by omega)
    obtain ⟨fs, t, ht, hqueue, hwriting', hsocket'⟩ := @exists_asked m (by omega)
    refine ⟨es ++ fs, t, run_join hm ht, ?_, hwriting'.trans hwriting, hsocket'.trans hsocket⟩
    rw [hqueue, hlength, Nat.add_assoc]

/-- One request is on the websocket, `writeLoop` has the next. -/
def firstTwo : List (Event Unit Unit) :=
  [.openSession () (request 0), .session () 0 .requestSent, .writeLoopTake (), .writeLoopWrite (),
    .openSession () (request 1), .session () 1 .requestSent, .writeLoopTake ()]

theorem run_firstTwo : ∃ s, run (step oneEach) (initial Unit Unit) firstTwo = some s ∧
    (s.proxy ()).writeCh = [] ∧ (s.proxy ()).writing = some (.text (request 1)) ∧
      s.toBroker () = [.text (request 0)] := ⟨_, rfl, rfl, rfl, rfl⟩

/-- The websocket to the broker and `writeCh` are full, `writeLoop` waits for the one and
a session that has just been opened for the other. -/
theorem never_deadlocks_full : ∃ (s : State Unit Unit) (n : Nat),
    Reachable (step oneEach) (· = initial Unit Unit) s ∧
      ((net oneEach s).Full (.toBroker ()) ∧ (net oneEach s).Full (.writeCh ())) ∧
      (sendsTo s (.writeLoop ()) = some (.toBroker ()) ∧
        step oneEach s (.writeLoopWrite ()) = none) ∧
      (sendsTo s (.handleBroker () n) = some (.writeCh ()) ∧
        step oneEach s (.session () n .requestSent) = none) ∧
      ∃ (g : Goroutine Unit Unit) (e : Event Unit Unit),
        e.mover = some g ∧ (step oneEach s e).isSome = true := by
  obtain ⟨s, hs, hempty, hwriting, hsocket⟩ := run_firstTwo
  obtain ⟨es, m, hm, hfull, hwriting', hsocket'⟩ :=
    @exists_filled writeQueueSize s (by rw [hempty]; exact Nat.le_of_eq (Nat.zero_add _))
  obtain ⟨t, ht, hn, hqueue, hwriting'', hsocket''⟩ :=
    exists_opened m (request (m.proxy ()).entries.length)
  have hlength : (t.proxy ()).writeCh.length = writeQueueSize := by
    rw [hqueue, hfull, hempty]
    exact Nat.zero_add _
  have hwrites : (t.proxy ()).writing = some (.text (request 1)) := by
    rw [hwriting'', hwriting', hwriting]
  have hwaits : t.toBroker () = [.text (request 0)] := by rw [hsocket'', hsocket', hsocket]
  have hlast : run (step oneEach) m [.openSession () (request (m.proxy ()).entries.length)] =
      some t := by
    rw [run_cons, ht]
    rfl
  have hreached : Reachable (step oneEach) (· = initial Unit Unit) t :=
    ⟨_, _, rfl, run_join (run_join hs hm) hlast⟩
  have hbroker : (net oneEach t).Full (.toBroker ()) := by
    change 1 ≤ (t.toBroker ()).length
    rw [hwaits]
    exact Nat.le_refl 1
  have hwriteCh : (net oneEach t).Full (.writeCh ()) := Nat.le_of_eq hlength.symm
  refine ⟨t, (m.proxy ()).entries.length, hreached, ⟨hbroker, hwriteCh⟩, ⟨?_, ?_⟩, ⟨?_, ?_⟩, ?_⟩
  · rw [sendsTo, hwrites]
    rfl
  · simp [step, hwrites, hwaits, oneEach]
  · simp [sendsTo, hn, ProxySession.stored]
  · simp [step, Proxy.ownStep, hn, Proxy.sends, Proxy.send, hlength]
  · refine never_deadlocks oneEach hreached (Or.inl ⟨.writeCh (), ?_⟩)
    change 0 < (t.proxy ()).writeCh.length
    rw [hlength]
    decide

end SplitProxy.RelayChain
