import SplitProxy.ProxyTail
import SplitProxy.WorkerTail

/-!
# Whether the tail of a stream is delivered

Both ends lose a tail in the same way: the close frame is acted on while chunks
read before it are still on their way to the slow peer. The runs that lose
nothing are exactly the drained ones.
-/
namespace SplitProxy.TailDelivery

open Runs ProxyTail WorkerTail

/-- One chunk and the close are read while the client has not been written to;
the select of `handleBroker` then takes `done`. -/
def slowClientRun : List ProxyEvent :=
  [.read, .session .signalConnected, .session .connectOk, .session .responseOk,
    .read, .session .queueData, .read, .session .remoteEnd, .session .loopClose,
    .session .selectDone, .session .closeChecked]

/-- The same frames, the chunk written before `done` is taken. -/
def promptClientRun : List ProxyEvent :=
  [.read, .session .signalConnected, .session .connectOk, .session .responseOk,
    .read, .session .queueData, .session .takeData, .session (.writeSome 1), .session .writeDone,
    .read, .session .remoteEnd, .session .loopClose, .session .selectDone, .session .closeChecked]

/-- One chunk is queued and the close is read before `sessionWriter` wakes up. -/
def slowTargetRun : List WorkerEvent :=
  [.read, .session .queueData, .read, .session (.closeBegin .loop), .session .closeTakeConn,
    .session .closeConn, .session (.closeReturn .loop), .session (.delete .loop),
    .session (.loopCloseSent true)]

/-- The same frames, the chunk written before the close is read. -/
def promptTargetRun : List WorkerEvent :=
  [.read, .session .queueData, .session .takeChunk, .session .connFound, .session (.writeSome 1),
    .read, .session (.closeBegin .loop), .session .closeTakeConn, .session .closeConn,
    .session (.closeReturn .loop), .session (.delete .loop), .session (.loopCloseSent true)]

/-- `handleBroker` returns having written the whole stream, and the target's
connection is closed after the whole stream was written to it, exactly on the
runs all of whose steps are drained. -/
theorem tail_delivered_iff_drained (ps ds : List Payload) :
    (∀ (es : List ProxyEvent) (t : ProxyRun),
      run proxyStep (proxyStart ps) es = some t → (∀ e ∈ es, ProxyTail.Served e) →
      t.session.handler = .returned →
      (t.session.written = ps ↔ Meets proxyStep ProxyDrained (proxyStart ps) es)) ∧
    (∀ (es : List WorkerEvent) (t : WorkerRun),
      run workerStep (workerStart ds) es = some t →
      Meets workerStep WorkerTail.Served (workerStart ds) es →
      t.session.target = .closed →
      (t.session.written = ds ↔ Meets workerStep WorkerDrained (workerStart ds) es)) := by
  constructor
  · intro es t hr hc hret
    exact ProxyTail.delivered_iff_drained hr hc hret
  · intro es t hr hc hclosed
    exact WorkerTail.delivered_iff_drained hr hc hclosed

theorem tail_delivered_prompt :
    (∃ t, run proxyStep (proxyStart [[7]]) promptClientRun = some t ∧
      (t.session.written = [[7]] ↔
        Meets proxyStep ProxyDrained (proxyStart [[7]]) promptClientRun)) ∧
    (∃ t, run workerStep (workerStart [[7]]) promptTargetRun = some t ∧
      (t.session.written = [[7]] ↔
        Meets workerStep WorkerDrained (workerStart [[7]]) promptTargetRun)) := by
  have hserved : ∀ e ∈ promptClientRun, ProxyTail.Served e := by
    simp [promptClientRun, ProxyTail.Served, ClientServes]
  have htarget : Meets workerStep WorkerTail.Served (workerStart [[7]]) promptTargetRun := by
    refine meets_of_mem fun e he s => ?_
    simp only [promptTargetRun, List.mem_cons, List.not_mem_nil, or_false] at he
    rcases he with rfl | rfl | rfl | rfl | rfl | rfl | rfl | rfl | rfl | rfl | rfl | rfl <;>
      simp [WorkerTail.Served, TargetServes]
  exact ⟨⟨_, rfl, (tail_delivered_iff_drained [[7]] [[7]]).1 _ _ rfl hserved rfl⟩,
    ⟨_, rfl, (tail_delivered_iff_drained [[7]] [[7]]).2 _ _ rfl htarget rfl⟩⟩

/-- A slow client loses the chunk, and so does a slow target. -/
theorem tail_lost :
    (¬∀ (ps : List Payload) (es : List ProxyEvent) (t : ProxyRun),
      run proxyStep (proxyStart ps) es = some t → (∀ e ∈ es, ProxyTail.Served e) →
      t.frames = [] → t.session.loop = .idle → t.session.handler = .returned →
      t.session.written = ps) ∧
    (¬∀ (ds : List Payload) (es : List WorkerEvent) (t : WorkerRun),
      run workerStep (workerStart ds) es = some t →
      Meets workerStep WorkerTail.Served (workerStart ds) es →
      t.frames = [] → t.session.loop = .idle → t.session.target = .closed →
      t.session.written = ds) := by
  constructor
  · intro h
    have hserved : ∀ e ∈ slowClientRun, ProxyTail.Served e := by
      simp [slowClientRun, ProxyTail.Served, ClientServes]
    have hw := h [[7]] slowClientRun _ rfl hserved rfl rfl rfl
    exact absurd hw (by decide)
  · intro h
    have htarget : Meets workerStep WorkerTail.Served (workerStart [[7]]) slowTargetRun := by
      refine meets_of_mem fun e he s => ?_
      simp only [slowTargetRun, List.mem_cons, List.not_mem_nil, or_false] at he
      rcases he with rfl | rfl | rfl | rfl | rfl | rfl | rfl | rfl | rfl <;>
        simp [WorkerTail.Served, TargetServes]
    have hw := h [[7]] slowTargetRun _ rfl htarget rfl rfl rfl
    exact absurd hw (by decide)

end SplitProxy.TailDelivery
