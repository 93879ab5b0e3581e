import SplitProxy.Runs
import SplitProxy.Fifo
import SplitProxy.Wire

/-!
# One session inside the worker

The worker's `Session` and the goroutines around it: `openTCP`, `sessionWriter`
and `remoteReader`, the `handleBrokerConnection` loop while it works on a frame
of the session, and the cleanup scan at the end of the broker connection. What
depends on the broker link being down (`done` of the connection) is a choice of
the surroundings, carried by the event.
-/
namespace SplitProxy.WorkerSession

def maxPacketData : Nat := 32 * 1024
def sessionWriteQueue : Nat := 512

/-- The buffer of `remoteReader`. -/
def targetBuffer : Nat := 64 * 1024

/-- `Session.close` runs once: close `done`, take `conn` under the lock, close it. -/
inductive CloseStage where
  | opened
  | doneClosed
  | connTaken (had : Bool)
  | closed
  deriving DecidableEq, Repr

/-- The target socket behind the session. -/
inductive Target where
  | absent
  | opened
  | closed
  deriving DecidableEq, Repr

inductive OpenerPc where
  | idle
  | spawned
  | stored
  | dialed
  | connSet
  | sendConnected
  | dialFailed
  | sendClose
  | refused
  | abortClose
  | abortDelete
  | returned
  deriving DecidableEq, Repr

inductive WriterPc where
  | notStarted
  | select
  | got (chunk : Payload)
  | write (chunk rest : Payload)
  | failLoad
  | failClose
  | failDelete
  | returned
  deriving DecidableEq, Repr

inductive ReaderPc where
  | notStarted
  | start
  | read
  | send (rest : Payload) (eof : Bool)
  | check
  | deferClose
  | deferDelete
  | deferSend
  | returned
  deriving DecidableEq, Repr

/-- The connection loop on a frame of this session; `reply` says whether
`closeSession` was given the send queue. -/
inductive LoopPc where
  | idle
  | enqueue (payload : Payload)
  | overflowLoad
  | closeClose (reply : Bool)
  | closeDelete (reply : Bool)
  | closeSend
  deriving DecidableEq, Repr

inductive CleanupPc where
  | idle
  | close
  | delete
  deriving DecidableEq, Repr

/-- The goroutines that call `Session.close` and then delete the session. -/
inductive Closer where
  | opener
  | writer
  | reader
  | loop
  | cleanup
  deriving DecidableEq, Repr

structure Session where
  registered : Bool
  writeCh : Fifo Payload
  /-- `s.conn` is not nil -/
  conn : Bool
  target : Target
  stage : CloseStage
  opener : OpenerPc
  writer : WriterPc
  reader : ReaderPc
  loop : LoopPc
  cleanup : CleanupPc
  /-- the loop has dropped a chunk through a done case -/
  dropped : Bool
  written : List Payload
  unfinished : Payload
  fromTarget : Payload
  received : List Packet
  emitted : List Packet

def fresh : Session where
  registered := false
  writeCh := .empty
  conn := false
  target := .absent
  stage := .opened
  opener := .idle
  writer := .notStarted
  reader := .notStarted
  loop := .idle
  cleanup := .idle
  dropped := false
  written := []
  unfinished := []
  fromTarget := []
  received := []
  emitted := []

/-- `session.done` is closed. -/
def isDone (s : Session) : Bool := s.stage ≠ .opened

/-- The bytes the target has accepted. -/
def targetBytes (s : Session) : Payload := s.written.flatten ++ s.unfinished

/-- `who` is inside its call of `Session.close`. -/
def wantsClose (s : Session) : Closer → Bool
  | .opener => s.opener = .abortClose
  | .writer => s.writer = .failClose
  | .reader => s.reader = .deferClose
  | .loop => match s.loop with
    | .closeClose _ => true
    | _ => false
  | .cleanup => s.cleanup = .close

/-- `Session.close` returns to `who`, whose next action is `sessions.Delete`. -/
def closeReturned (s : Session) : Closer → Session
  | .opener => { s with opener := .abortDelete }
  | .writer => { s with writer := .failDelete }
  | .reader => { s with reader := .deferDelete }
  | .loop => match s.loop with
    | .closeClose reply => { s with loop := .closeDelete reply }
    | _ => s
  | .cleanup => { s with cleanup := .delete }

/-- `sessions.Delete` by `who`, and where `who` goes next. -/
def deleteBy (s : Session) : Closer → Option Session
  | .opener =>
    if s.opener = .abortDelete ∨ s.opener = .refused then
      some { s with registered := false, opener := .returned } else none
  | .writer =>
    if s.writer = .failDelete then some { s with registered := false, writer := .returned } else none
  | .reader =>
    if s.reader = .deferDelete then some { s with registered := false, reader := .deferSend } else none
  | .loop => match s.loop with
    | .closeDelete reply =>
      some { s with registered := false, loop := if reply then .closeSend else .idle }
    | _ => none
  | .cleanup =>
    if s.cleanup = .delete then some { s with registered := false, cleanup := .idle } else none

/-- Progress of the partial-write loop: back to the select once no byte is left. -/
def wrote (s : Session) (chunk rest bytes : Payload) : Session :=
  if rest = [] then
    { s with writer := .select, written := s.written ++ [chunk], unfinished := [] }
  else { s with writer := .write chunk rest, unfinished := s.unfinished ++ bytes }

inductive Event where
  -- openTCP
  | spawn
  | openCancelled
  | loadOrStore
  | cancelledBeforeDial
  | dialOk
  | dialErr
  | dialErrDelete (cancelled : Bool)
  | openCloseSent (ok : Bool)
  | cancelledAfterDial
  | setConn
  | startGoroutines
  | connectedSent (ok : Bool)
  -- Session.close and sessions.Delete
  | closeBegin (who : Closer)
  | closeTakeConn
  | closeConn
  | closeReturn (who : Closer)
  | delete (who : Closer)
  -- sessionWriter
  | writerStop (linkDown : Bool)
  | takeChunk
  | connGone
  | connFound
  | deadlineFailed
  | writeSome (n : Nat)
  | writeFailed
  | writerLoad
  -- remoteReader
  | readerStart
  | targetRead (chunk : Payload) (eof : Bool)
  | chunkSent
  | chunkFailed
  | readerStop (linkDown : Bool)
  | readerContinue
  | readerCloseSent (ok : Bool)
  -- the connection loop on a frame of this session
  | frame (cmd : Command) (payload : Payload)
  | queueData
  | dropData (linkDown : Bool)
  | overflow
  | overflowLoad
  | loopCloseSent (ok : Bool)
  -- the cleanup scan of handleBrokerConnection
  | cleanupBegin
  deriving DecidableEq, Repr

/-- Where `remoteReader` goes once a read has been sent completely. -/
def afterRead (eof : Bool) : ReaderPc := if eof then .deferClose else .check

def step (s : Session) : Event → Option Session
  | .spawn => if s.opener = .idle then some { s with opener := .spawned } else none
  | .openCancelled => if s.opener = .spawned then some { s with opener := .returned } else none
  | .loadOrStore =>
    if s.opener = .spawned then
      some (if s.registered then { s with opener := .returned }
        else { s with opener := .stored, registered := true })
    else none
  | .cancelledBeforeDial =>
    if s.opener = .stored then some { s with opener := .abortClose } else none
  | .dialOk =>
    if s.opener = .stored then some { s with opener := .dialed, target := .opened } else none
  | .dialErr => if s.opener = .stored then some { s with opener := .dialFailed } else none
  | .dialErrDelete cancelled =>
    if s.opener = .dialFailed then
      some { s with registered := false, opener := if cancelled then .returned else .sendClose }
    else none
  | .openCloseSent ok =>
    if s.opener = .sendClose then
      some { s with opener := .returned
                    emitted := if ok then s.emitted ++ [(.close, [])] else s.emitted }
    else none
  | .cancelledAfterDial =>
    if s.opener = .dialed then some { s with opener := .abortClose, target := .closed } else none
  | .setConn =>
    -- refused once `done` is closed; the fresh connection is closed at once
    if s.opener = .dialed then
      some (if isDone s then { s with opener := .refused, target := .closed }
        else { s with opener := .connSet, conn := true })
    else none
  | .startGoroutines =>
    if s.opener = .connSet then
      some { s with opener := .sendConnected, writer := .select, reader := .start } else none
  | .connectedSent ok =>
    if s.opener = .sendConnected then
      some { s with opener := if ok then .returned else .abortClose
                    emitted := if ok then s.emitted ++ [(.connected, [])] else s.emitted }
    else none
  | .closeBegin who =>
    if wantsClose s who = true ∧ s.stage = .opened then some { s with stage := .doneClosed } else none
  | .closeTakeConn =>
    if s.stage = .doneClosed then some { s with stage := .connTaken s.conn, conn := false } else none
  | .closeConn =>
    match s.stage with
    | .connTaken had =>
      some { s with stage := .closed, target := if had then .closed else s.target }
    | _ => none
  | .closeReturn who =>
    if wantsClose s who = true ∧ s.stage = .closed then some (closeReturned s who) else none
  | .delete who => deleteBy s who
  | .writerStop linkDown =>
    if s.writer = .select ∧ (linkDown || isDone s) = true then some { s with writer := .returned }
    else none
  | .takeChunk =>
    if s.writer = .select then
      s.writeCh.pop.map (fun r => { s with writeCh := r.2, writer := .got r.1 })
    else none
  | .connGone =>
    match s.writer with
    | .got _ => if s.conn = false then some { s with writer := .returned } else none
    | _ => none
  | .connFound =>
    match s.writer with
    | .got chunk => if s.conn = true then some (wrote s chunk chunk []) else none
    | _ => none
  | .deadlineFailed =>
    match s.writer with
    | .got _ => if s.conn = true then some { s with writer := .failLoad } else none
    | _ => none
  | .writeSome n =>
    match s.writer with
    | .write chunk rest =>
      if 0 < n ∧ n ≤ rest.length ∧ s.target = .opened then
        some (wrote s chunk (rest.drop n) (rest.take n))
      else none
    | _ => none
  | .writeFailed =>
    match s.writer with
    | .write _ _ => some { s with writer := .failLoad }
    | _ => none
  | .writerLoad =>
    if s.writer = .failLoad then
      some { s with writer := if s.registered then .failClose else .returned } else none
  | .readerStart =>
    if s.reader = .start then
      some { s with reader := if s.conn then .read else .returned } else none
  | .targetRead chunk eof =>
    if s.reader = .read ∧ chunk.length ≤ targetBuffer ∧
        (s.target = .opened ∨ (chunk = [] ∧ eof = true)) then
      some { s with fromTarget := s.fromTarget ++ chunk
                    reader := if chunk = [] then afterRead eof else .send chunk eof }
    else none
  | .chunkSent =>
    match s.reader with
    | .send rest eof =>
      some { s with emitted := s.emitted ++ [(.data, rest.take maxPacketData)]
                    reader := if rest.drop maxPacketData = [] then afterRead eof
                      else .send (rest.drop maxPacketData) eof }
    | _ => none
  | .chunkFailed =>
    match s.reader with
    | .send _ _ => some { s with reader := .deferClose }
    | _ => none
  | .readerStop linkDown =>
    if s.reader = .check ∧ (linkDown || isDone s) = true then some { s with reader := .deferClose }
    else none
  | .readerContinue =>
    if s.reader = .check ∧ isDone s = false then some { s with reader := .read } else none
  | .readerCloseSent ok =>
    if s.reader = .deferSend then
      some { s with reader := .returned
                    emitted := if ok then s.emitted ++ [(.close, [])] else s.emitted }
    else none
  | .frame cmd payload =>
    if s.registered = true ∧ s.loop = .idle then
      if cmd.carriesData then
        some { s with loop := .enqueue payload, received := s.received ++ [(cmd, payload)] }
      else if cmd = .close then
        some { s with loop := .closeClose true, received := s.received ++ [(cmd, payload)] }
      else none
    else none
  | .queueData =>
    match s.loop with
    | .enqueue payload =>
      if s.writeCh.queue.length < sessionWriteQueue then
        some { s with loop := .idle, writeCh := s.writeCh.push payload }
      else none
    | _ => none
  | .dropData linkDown =>
    match s.loop with
    | .enqueue _ =>
      if (linkDown || isDone s) = true then some { s with loop := .idle, dropped := true } else none
    | _ => none
  | .overflow =>
    match s.loop with
    | .enqueue _ =>
      if isDone s = false ∧ ¬ s.writeCh.queue.length < sessionWriteQueue then
        some { s with loop := .overflowLoad }
      else none
    | _ => none
  | .overflowLoad =>
    if s.loop = .overflowLoad then
      some { s with loop := if s.registered then .closeClose false else .idle } else none
  | .loopCloseSent ok =>
    if s.loop = .closeSend then
      some { s with loop := .idle
                    emitted := if ok then s.emitted ++ [(.close, [])] else s.emitted }
    else none
  | .cleanupBegin =>
    if s.registered = true ∧ s.cleanup = .idle then some { s with cleanup := .close } else none

section Wrote

variable (s : Session) (chunk rest bytes : Payload)

@[simp] theorem wrote_registered : (wrote s chunk rest bytes).registered = s.registered := by
  unfold wrote; split <;> rfl
@[simp] theorem wrote_writeCh : (wrote s chunk rest bytes).writeCh = s.writeCh := by
  unfold wrote; split <;> rfl
@[simp] theorem wrote_target : (wrote s chunk rest bytes).target = s.target := by
  unfold wrote; split <;> rfl
@[simp] theorem wrote_stage : (wrote s chunk rest bytes).stage = s.stage := by
  unfold wrote; split <;> rfl
@[simp] theorem wrote_conn : (wrote s chunk rest bytes).conn = s.conn := by
  unfold wrote; split <;> rfl
@[simp] theorem wrote_opener : (wrote s chunk rest bytes).opener = s.opener := by
  unfold wrote; split <;> rfl
@[simp] theorem wrote_reader : (wrote s chunk rest bytes).reader = s.reader := by
  unfold wrote; split <;> rfl
@[simp] theorem wrote_loop : (wrote s chunk rest bytes).loop = s.loop := by
  unfold wrote; split <;> rfl
@[simp] theorem wrote_dropped : (wrote s chunk rest bytes).dropped = s.dropped := by
  unfold wrote; split <;> rfl
@[simp] theorem wrote_fromTarget : (wrote s chunk rest bytes).fromTarget = s.fromTarget := by
  unfold wrote; split <;> rfl
@[simp] theorem wrote_received : (wrote s chunk rest bytes).received = s.received := by
  unfold wrote; split <;> rfl
@[simp] theorem wrote_emitted : (wrote s chunk rest bytes).emitted = s.emitted := by
  unfold wrote; split <;> rfl

end Wrote

variable {s t : Session} {e : Event}

/-! ## What a step does -/

inductive Move (s : Session) : Event → Session → Prop where
  | spawn (ho : s.opener = .idle) : Move s .spawn { s with opener := .spawned }
  | openCancelled (ho : s.opener = .spawned) : Move s .openCancelled { s with opener := .returned }
  | found (ho : s.opener = .spawned) (hr : s.registered = true) :
      Move s .loadOrStore { s with opener := .returned }
  | stored (ho : s.opener = .spawned) (hr : s.registered = false) :
      Move s .loadOrStore { s with opener := .stored, registered := true }
  | cancelledBeforeDial (ho : s.opener = .stored) :
      Move s .cancelledBeforeDial { s with opener := .abortClose }
  | dialOk (ho : s.opener = .stored) :
      Move s .dialOk { s with opener := .dialed, target := .opened }
  | dialErr (ho : s.opener = .stored) : Move s .dialErr { s with opener := .dialFailed }
  | dialErrDelete {cancelled : Bool} (ho : s.opener = .dialFailed) :
      Move s (.dialErrDelete cancelled)
        { s with registered := false, opener := if cancelled then .returned else .sendClose }
  | openCloseSent {ok : Bool} (ho : s.opener = .sendClose) :
      Move s (.openCloseSent ok)
        { s with
          opener := .returned
          emitted := if ok then s.emitted ++ [(.close, [])] else s.emitted }
  | cancelledAfterDial (ho : s.opener = .dialed) :
      Move s .cancelledAfterDial { s with opener := .abortClose, target := .closed }
  | connRefused (ho : s.opener = .dialed) (hd : isDone s = true) :
      Move s .setConn { s with opener := .refused, target := .closed }
  | setConn (ho : s.opener = .dialed) (hd : isDone s = false) :
      Move s .setConn { s with opener := .connSet, conn := true }
  | startGoroutines (ho : s.opener = .connSet) :
      Move s .startGoroutines
        { s with opener := .sendConnected, writer := .select, reader := .start }
  | connectedSent {ok : Bool} (ho : s.opener = .sendConnected) :
      Move s (.connectedSent ok)
        { s with
          opener := if ok then .returned else .abortClose
          emitted := if ok then s.emitted ++ [(.connected, [])] else s.emitted }
  | closeBegin {who : Closer} (hw : wantsClose s who = true) (hs : s.stage = .opened) :
      Move s (.closeBegin who) { s with stage := .doneClosed }
  | closeTakeConn (hs : s.stage = .doneClosed) :
      Move s .closeTakeConn { s with stage := .connTaken s.conn, conn := false }
  | closeConn {had : Bool} (hs : s.stage = .connTaken had) :
      Move s .closeConn { s with stage := .closed, target := if had then .closed else s.target }
  | openerCloses (ho : s.opener = .abortClose) (hs : s.stage = .closed) :
      Move s (.closeReturn .opener) { s with opener := .abortDelete }
  | writerCloses (hw : s.writer = .failClose) (hs : s.stage = .closed) :
      Move s (.closeReturn .writer) { s with writer := .failDelete }
  | readerCloses (hr : s.reader = .deferClose) (hs : s.stage = .closed) :
      Move s (.closeReturn .reader) { s with reader := .deferDelete }
  | loopCloses {reply : Bool} (hl : s.loop = .closeClose reply) (hs : s.stage = .closed) :
      Move s (.closeReturn .loop) { s with loop := .closeDelete reply }
  | cleanupCloses (hc : s.cleanup = .close) (hs : s.stage = .closed) :
      Move s (.closeReturn .cleanup) { s with cleanup := .delete }
  | openerDeletes (ho : s.opener = .abortDelete ∨ s.opener = .refused) :
      Move s (.delete .opener) { s with registered := false, opener := .returned }
  | writerDeletes (hw : s.writer = .failDelete) :
      Move s (.delete .writer) { s with registered := false, writer := .returned }
  | readerDeletes (hr : s.reader = .deferDelete) :
      Move s (.delete .reader) { s with registered := false, reader := .deferSend }
  | loopDeletes {reply : Bool} (hl : s.loop = .closeDelete reply) :
      Move s (.delete .loop)
        { s with registered := false, loop := if reply then .closeSend else .idle }
  | cleanupDeletes (hc : s.cleanup = .delete) :
      Move s (.delete .cleanup) { s with registered := false, cleanup := .idle }
  | writerStop {linkDown : Bool} (hw : s.writer = .select) (hd : (linkDown || isDone s) = true) :
      Move s (.writerStop linkDown) { s with writer := .returned }
  | takeChunk {chunk : Payload} {d : Fifo Payload} (hw : s.writer = .select)
      (hq : s.writeCh.pop = some (chunk, d)) :
      Move s .takeChunk { s with writeCh := d, writer := .got chunk }
  | connGone {chunk : Payload} (hw : s.writer = .got chunk) (hc : s.conn = false) :
      Move s .connGone { s with writer := .returned }
  | connFound {chunk : Payload} (hw : s.writer = .got chunk) (hc : s.conn = true) :
      Move s .connFound (wrote s chunk chunk [])
  | deadlineFailed {chunk : Payload} (hw : s.writer = .got chunk) (hc : s.conn = true) :
      Move s .deadlineFailed { s with writer := .failLoad }
  | writeSome {n : Nat} {chunk rest : Payload} (hw : s.writer = .write chunk rest)
      (hn : 0 < n ∧ n ≤ rest.length) (ht : s.target = .opened) :
      Move s (.writeSome n) (wrote s chunk (rest.drop n) (rest.take n))
  | writeFailed {chunk rest : Payload} (hw : s.writer = .write chunk rest) :
      Move s .writeFailed { s with writer := .failLoad }
  | writerLoad (hw : s.writer = .failLoad) :
      Move s .writerLoad { s with writer := if s.registered then .failClose else .returned }
  | readerStart (hr : s.reader = .start) :
      Move s .readerStart { s with reader := if s.conn then .read else .returned }
  | targetRead {chunk : Payload} {eof : Bool} (hr : s.reader = .read)
      (hlen : chunk.length ≤ targetBuffer) (ht : s.target = .opened ∨ (chunk = [] ∧ eof = true)) :
      Move s (.targetRead chunk eof)
        { s with
          fromTarget := s.fromTarget ++ chunk
          reader := if chunk = [] then afterRead eof else .send chunk eof }
  | chunkSent {rest : Payload} {eof : Bool} (hr : s.reader = .send rest eof) :
      Move s .chunkSent
        { s with
          emitted := s.emitted ++ [(.data, rest.take maxPacketData)]
          reader := if rest.drop maxPacketData = [] then afterRead eof
            else .send (rest.drop maxPacketData) eof }
  | chunkFailed {rest : Payload} {eof : Bool} (hr : s.reader = .send rest eof) :
      Move s .chunkFailed { s with reader := .deferClose }
  | readerStop {linkDown : Bool} (hr : s.reader = .check) (hd : (linkDown || isDone s) = true) :
      Move s (.readerStop linkDown) { s with reader := .deferClose }
  | readerContinue (hr : s.reader = .check) (hd : isDone s = false) :
      Move s .readerContinue { s with reader := .read }
  | readerCloseSent {ok : Bool} (hr : s.reader = .deferSend) :
      Move s (.readerCloseSent ok)
        { s with
          reader := .returned
          emitted := if ok then s.emitted ++ [(.close, [])] else s.emitted }
  | dataFrame {cmd : Command} {p : Payload} (hr : s.registered = true) (hl : s.loop = .idle)
      (hc : cmd.carriesData = true) :
      Move s (.frame cmd p) { s with loop := .enqueue p, received := s.received ++ [(cmd, p)] }
  | closeFrame {p : Payload} (hr : s.registered = true) (hl : s.loop = .idle) :
      Move s (.frame .close p)
        { s with loop := .closeClose true, received := s.received ++ [(.close, p)] }
  | queueData {p : Payload} (hl : s.loop = .enqueue p)
      (hroom : s.writeCh.queue.length < sessionWriteQueue) :
      Move s .queueData { s with loop := .idle, writeCh := s.writeCh.push p }
  | dropData {linkDown : Bool} {p : Payload} (hl : s.loop = .enqueue p)
      (hd : (linkDown || isDone s) = true) :
      Move s (.dropData linkDown) { s with loop := .idle, dropped := true }
  | overflow {p : Payload} (hl : s.loop = .enqueue p) (hd : isDone s = false)
      (hfull : ¬s.writeCh.queue.length < sessionWriteQueue) :
      Move s .overflow { s with loop := .overflowLoad }
  | overflowLoad (hl : s.loop = .overflowLoad) :
      Move s .overflowLoad { s with loop := if s.registered then .closeClose false else .idle }
  | loopCloseSent {ok : Bool} (hl : s.loop = .closeSend) :
      Move s (.loopCloseSent ok)
        { s with
          loop := .idle
          emitted := if ok then s.emitted ++ [(.close, [])] else s.emitted }
  | cleanupBegin (hr : s.registered = true) (hc : s.cleanup = .idle) :
      Move s .cleanupBegin { s with cleanup := .close }

/-- `Session.close` returns to the goroutine that called it. -/
theorem closeReturn_move {who : Closer} (hw : wantsClose s who = true) (hs : s.stage = .closed) :
    Move s (.closeReturn who) (closeReturned s who) := by
  cases who with
  | opener => exact .openerCloses (of_decide_eq_true hw) hs
  | writer => exact .writerCloses (of_decide_eq_true hw) hs
  | reader => exact .readerCloses (of_decide_eq_true hw) hs
  | loop =>
    simp only [wantsClose] at hw
    split at hw
    · rename_i reply hl
      simp only [closeReturned, hl]
      exact .loopCloses hl hs
    · cases hw
  | cleanup => exact .cleanupCloses (of_decide_eq_true hw) hs

theorem delete_move {who : Closer} (h : deleteBy s who = some t) : Move s (.delete who) t := by
  cases who with
  | opener =>
    simp only [deleteBy] at h
    split at h <;> cases h
    exact .openerDeletes ‹_›
  | writer =>
    simp only [deleteBy] at h
    split at h <;> cases h
    exact .writerDeletes ‹_›
  | reader =>
    simp only [deleteBy] at h
    split at h <;> cases h
    exact .readerDeletes ‹_›
  | loop =>
    simp only [deleteBy] at h
    split at h <;> cases h
    exact .loopDeletes ‹_›
  | cleanup =>
    simp only [deleteBy] at h
    split at h <;> cases h
    exact .cleanupDeletes ‹_›

theorem step_move (h : step s e = some t) : Move s e t := by
  cases e with
  | spawn =>
    simp only [step] at h
    split at h <;> cases h
    exact .spawn ‹_›
  | openCancelled =>
    simp only [step] at h
    split at h <;> cases h
    exact .openCancelled ‹_›
  | loadOrStore =>
    simp only [step] at h
    split at h
    · rename_i ho
      cases h
      by_cases hr : s.registered = true
      · rw [if_pos hr]
        exact .found ho hr
      · rw [if_neg hr]
        exact .stored ho (Bool.eq_false_iff.mpr hr)
    · cases h
  | cancelledBeforeDial =>
    simp only [step] at h
    split at h <;> cases h
    exact .cancelledBeforeDial ‹_›
  | dialOk =>
    simp only [step] at h
    split at h <;> cases h
    exact .dialOk ‹_›
  | dialErr =>
    simp only [step] at h
    split at h <;> cases h
    exact .dialErr ‹_›
  | dialErrDelete cancelled =>
    simp only [step] at h
    split at h <;> cases h
    exact .dialErrDelete ‹_›
  | openCloseSent ok =>
    simp only [step] at h
    split at h <;> cases h
    exact .openCloseSent ‹_›
  | cancelledAfterDial =>
    simp only [step] at h
    split at h <;> cases h
    exact .cancelledAfterDial ‹_›
  | setConn =>
    simp only [step] at h
    split at h
    · rename_i ho
      cases h
      cases hd : isDone s with
      | true => exact .connRefused ho hd
      | false => exact .setConn ho hd
    · cases h
  | startGoroutines =>
    simp only [step] at h
    split at h <;> cases h
    exact .startGoroutines ‹_›
  | connectedSent ok =>
    simp only [step] at h
    split at h <;> cases h
    exact .connectedSent ‹_›
  | closeBegin who =>
    simp only [step] at h
    split at h
    · rename_i hp
      cases h
      exact .closeBegin hp.1 hp.2
    · cases h
  | closeTakeConn =>
    simp only [step] at h
    split at h <;> cases h
    exact .closeTakeConn ‹_›
  | closeConn =>
    simp only [step] at h
    split at h <;> cases h
    exact .closeConn ‹_›
  | closeReturn who =>
    simp only [step] at h
    split at h
    · rename_i hp
      cases h
      exact closeReturn_move hp.1 hp.2
    · cases h
  | delete who => exact delete_move h
  | writerStop linkDown =>
    simp only [step] at h
    split at h
    · rename_i hp
      cases h
      exact .writerStop hp.1 hp.2
    · cases h
  | takeChunk =>
    simp only [step] at h
    split at h
    · rename_i hw
      obtain ⟨⟨m, d⟩, hq, rfl⟩ := Option.map_eq_some_iff.mp h
      exact .takeChunk hw hq
    · cases h
  | connGone =>
    simp only [step] at h
    split at h
    · rename_i hw
      split at h <;> cases h
      exact .connGone hw ‹_›
    · cases h
  | connFound =>
    simp only [step] at h
    split at h
    · rename_i hw
      split at h <;> cases h
      exact .connFound hw ‹_›
    · cases h
  | deadlineFailed =>
    simp only [step] at h
    split at h
    · rename_i hw
      split at h <;> cases h
      exact .deadlineFailed hw ‹_›
    · cases h
  | writeSome n =>
    simp only [step] at h
    split at h
    · rename_i hw
      split at h
      · rename_i hn
        cases h
        exact .writeSome hw ⟨hn.1, hn.2.1⟩ hn.2.2
      · cases h
    · cases h
  | writeFailed =>
    simp only [step] at h
    split at h <;> cases h
    exact .writeFailed ‹_›
  | writerLoad =>
    simp only [step] at h
    split at h <;> cases h
    exact .writerLoad ‹_›
  | readerStart =>
    simp only [step] at h
    split at h <;> cases h
    exact .readerStart ‹_›
  | targetRead chunk eof =>
    simp only [step] at h
    split at h
    · rename_i hp
      cases h
      exact .targetRead hp.1 hp.2.1 hp.2.2
    · cases h
  | chunkSent =>
    simp only [step] at h
    split at h <;> cases h
    exact .chunkSent ‹_›
  | chunkFailed =>
    simp only [step] at h
    split at h <;> cases h
    exact .chunkFailed ‹_›
  | readerStop linkDown =>
    simp only [step] at h
    split at h
    · rename_i hp
      cases h
      exact .readerStop hp.1 hp.2
    · cases h
  | readerContinue =>
    simp only [step] at h
    split at h
    · rename_i hp
      cases h
      exact .readerContinue hp.1 hp.2
    · cases h
  | readerCloseSent ok =>
    simp only [step] at h
    split at h <;> cases h
    exact .readerCloseSent ‹_›
  | frame cmd p =>
    simp only [step] at h
    split at h
    · rename_i hp
      split at h
      · rename_i hc
        cases h
        exact .dataFrame hp.1 hp.2 hc
      · split at h
        · rename_i hc
          cases h
          subst hc
          exact .closeFrame hp.1 hp.2
        · cases h
    · cases h
  | queueData =>
    simp only [step] at h
    split at h
    · rename_i hl
      split at h <;> cases h
      exact .queueData hl ‹_›
    · cases h
  | dropData linkDown =>
    simp only [step] at h
    split at h
    · rename_i hl
      split at h <;> cases h
      exact .dropData hl ‹_›
    · cases h
  | overflow =>
    simp only [step] at h
    split at h
    · rename_i hl
      split at h
      · rename_i hp
        cases h
        exact .overflow hl hp.1 hp.2
      · cases h
    · cases h
  | overflowLoad =>
    simp only [step] at h
    split at h <;> cases h
    exact .overflowLoad ‹_›
  | loopCloseSent ok =>
    simp only [step] at h
    split at h <;> cases h
    exact .loopCloseSent ‹_›
  | cleanupBegin =>
    simp only [step] at h
    split at h
    · rename_i hp
      cases h
      exact .cleanupBegin hp.1 hp.2
    · cases h

/-- The loop loads the session for stream and close frames, and only from the map. -/
theorem frame_some {cmd : Command} {p : Payload} (h : step s (.frame cmd p) = some t) :
    s.registered = true ∧ s.loop = .idle ∧
      ((cmd.carriesData = true ∧
          t = { s with loop := .enqueue p, received := s.received ++ [(cmd, p)] }) ∨
        (cmd = .close ∧
          t = { s with loop := .closeClose true, received := s.received ++ [(cmd, p)] })) := by
  cases step_move h with
  | dataFrame hr hl hc => exact ⟨hr, hl, .inl ⟨hc, rfl⟩⟩
  | closeFrame hr hl => exact ⟨hr, hl, .inr ⟨rfl, rfl⟩⟩

/-! ## Whose step it is -/

def ofOpener : Event → Bool
  | .spawn | .openCancelled | .loadOrStore | .cancelledBeforeDial | .dialOk | .dialErr
  | .dialErrDelete _ | .openCloseSent _ | .cancelledAfterDial | .setConn | .startGoroutines
  | .connectedSent _ | .closeReturn .opener | .delete .opener => true
  | _ => false

def ofWriter : Event → Bool
  | .writerStop _ | .takeChunk | .connGone | .connFound | .deadlineFailed | .writeSome _
  | .writeFailed | .writerLoad | .closeReturn .writer | .delete .writer => true
  | _ => false

def ofReader : Event → Bool
  | .readerStart | .targetRead _ _ | .chunkSent | .chunkFailed | .readerStop _ | .readerContinue
  | .readerCloseSent _ | .closeReturn .reader | .delete .reader => true
  | _ => false

def ofLoop : Event → Bool
  | .frame _ _ | .queueData | .dropData _ | .overflow | .overflowLoad | .loopCloseSent _
  | .closeReturn .loop | .delete .loop => true
  | _ => false

/-- `openTCP` is where it was. -/
theorem opener_kept (h : step s e = some t) (he : ofOpener e = false) : t.opener = s.opener := by
  cases step_move h with
  | spawn | openCancelled | found | stored | cancelledBeforeDial | dialOk | dialErr
  | dialErrDelete | openCloseSent | cancelledAfterDial | connRefused | setConn | startGoroutines
  | connectedSent | openerCloses | openerDeletes => cases he
  | connFound | writeSome => exact wrote_opener ..
  | _ => rfl

/-- `sessionWriter` is where it was, and so is what it has taken and written. -/
structure WriterKept (s t : Session) : Prop where
  writer : t.writer = s.writer
  taken : t.writeCh.taken = s.writeCh.taken
  written : t.written = s.written
  unfinished : t.unfinished = s.unfinished

theorem writerKept_step (h : step s e = some t) (he : ofWriter e = false)
    (hstart : e ≠ .startGoroutines) : WriterKept s t := by
  cases step_move h with
  | startGoroutines => exact absurd rfl hstart
  | writerStop | takeChunk | connGone | connFound | deadlineFailed | writeSome | writeFailed
  | writerLoad | writerCloses | writerDeletes => cases he
  | _ => exact ⟨rfl, rfl, rfl, rfl⟩

/-- `remoteReader` is where it was, and so is what it has read and sent. -/
structure ReaderKept (s t : Session) : Prop where
  reader : t.reader = s.reader
  sent : dataOf t.emitted = dataOf s.emitted
  fromTarget : t.fromTarget = s.fromTarget

theorem readerKept_step (h : step s e = some t) (he : ofReader e = false)
    (hstart : e ≠ .startGoroutines) : ReaderKept s t := by
  cases step_move h with
  | startGoroutines => exact absurd rfl hstart
  | readerStart | targetRead | chunkSent | chunkFailed | readerStop | readerContinue
  | readerCloseSent | readerCloses | readerDeletes => cases he
  | connFound | writeSome =>
    exact ⟨wrote_reader .., congrArg dataOf (wrote_emitted ..), wrote_fromTarget ..⟩
  | @openCloseSent ok | @connectedSent ok | @loopCloseSent ok =>
    -- a close or connected packet is no data
    cases ok <;> exact ⟨rfl, by simp, rfl⟩
  | _ => exact ⟨rfl, rfl, rfl⟩

/-- The session enters the map only by `LoadOrStore`. -/
theorem registered_kept (h : step s e = some t) (he : e ≠ .loadOrStore) (ht : t.registered = true) :
    s.registered = true := by
  cases step_move h with
  | found => exact ht
  | stored => exact absurd rfl he
  | connFound | writeSome => rwa [wrote_registered] at ht
  | dialErrDelete | openerDeletes | writerDeletes | readerDeletes | loopDeletes
  | cleanupDeletes => cases ht
  | _ => exact ht

/-- The loop is where it was, and so is what it was given and has queued. -/
structure LoopKept (s t : Session) : Prop where
  loop : t.loop = s.loop
  dropped : t.dropped = s.dropped
  sent : t.writeCh.sent = s.writeCh.sent
  received : t.received = s.received

theorem loopKept_step (h : step s e = some t) (he : ofLoop e = false) : LoopKept s t := by
  cases step_move h with
  | dataFrame | closeFrame | queueData | dropData | overflow | overflowLoad | loopCloseSent
  | loopCloses | loopDeletes => cases he
  | takeChunk _ hq => exact ⟨rfl, rfl, (Fifo.pop_some hq).1, rfl⟩
  | connFound | writeSome =>
    exact ⟨wrote_loop .., wrote_dropped .., congrArg Fifo.sent (wrote_writeCh ..),
      wrote_received ..⟩
  | _ => exact ⟨rfl, rfl, rfl, rfl⟩

/-! ## What every step keeps -/

/-- `openTCP` got past its first check: the session is or was in the map. -/
def Started (s : Session) : Prop := s.opener ≠ .idle ∧ s.opener ≠ .spawned

theorem started_step (hs : Started s) (h : step s e = some t) : Started t := by
  by_cases he : ofOpener e
  case neg =>
    rw [Started, opener_kept h (Bool.eq_false_iff.mpr he)]
    exact hs
  cases step_move h with
  | spawn ho => exact absurd ho hs.1
  | openCancelled ho | found ho | stored ho => exact absurd ho hs.2
  | cancelledBeforeDial | dialOk | dialErr | openCloseSent | cancelledAfterDial | connRefused
  | setConn | startGoroutines | openerCloses | openerDeletes => exact ⟨by simp, by simp⟩
  | @dialErrDelete choice | @connectedSent choice => cases choice <;> exact ⟨by simp, by simp⟩
  | _ => simp [ofOpener] at he

/-- Before `openTCP` stores the session nothing has touched it. -/
def StoredFirst (s : Session) : Prop :=
  s.opener = .idle ∨ s.opener = .spawned → s = { fresh with opener := s.opener }

theorem storedFirst_step (hs : StoredFirst s) (h : step s e = some t) : StoredFirst t := by
  by_cases hst : Started s
  · have ht := started_step hst h
    intro hn
    rcases hn with hn | hn
    · exact absurd hn ht.1
    · exact absurd hn ht.2
  · have hop : s.opener = .idle ∨ s.opener = .spawned := by
      simp only [Started, not_and_or, not_not] at hst
      exact hst
    have hs := hs hop
    generalize s.opener = o at hs hop
    subst hs
    rcases hop with rfl | rfl
    all_goals
      cases e <;> simp only [step] at h
      case takeChunk => simp [fresh] at h
      case delete who => cases who <;> simp [deleteBy, fresh] at h
      case closeBegin who => cases who <;> simp [wantsClose, fresh] at h
      case closeReturn who => cases who <;> simp [wantsClose, fresh] at h
      all_goals simp [fresh] at h
      all_goals
        subst h
        simp [StoredFirst, fresh]

/-- The goroutines are started once, after `setConn`. -/
def GoroutinesLater (s : Session) : Prop :=
  s.opener = .stored ∨ s.opener = .dialed ∨ s.opener = .connSet →
    s.writer = .notStarted ∧ s.reader = .notStarted

/-- A writer that takes a step has been started. -/
theorem writer_started (h : step s e = some t) (he : ofWriter e = true) :
    s.writer ≠ .notStarted := by
  cases step_move h with
  | writerStop hw | takeChunk hw | connGone hw | connFound hw | deadlineFailed hw | writeSome hw
  | writeFailed hw | writerLoad hw | writerCloses hw | writerDeletes hw => simp [hw]
  | _ => simp [ofWriter] at he

/-- And so has a reader. -/
theorem reader_started (h : step s e = some t) (he : ofReader e = true) :
    s.reader ≠ .notStarted := by
  cases step_move h with
  | readerStart hr | targetRead hr | chunkSent hr | chunkFailed hr | readerStop hr
  | readerContinue hr | readerCloseSent hr | readerCloses hr | readerDeletes hr => simp [hr]
  | _ => simp [ofReader] at he

/-- A step that is not `go` leaves goroutines that have not been started. -/
theorem unstarted_kept (h : step s e = some t) (hstart : e ≠ .startGoroutines)
    (hs : s.writer = .notStarted ∧ s.reader = .notStarted) :
    t.writer = .notStarted ∧ t.reader = .notStarted := by
  have hw : ofWriter e = false := Bool.eq_false_iff.mpr fun he => writer_started h he hs.1
  have hr : ofReader e = false := Bool.eq_false_iff.mpr fun he => reader_started h he hs.2
  rw [(writerKept_step h hw hstart).writer, (readerKept_step h hr hstart).reader]
  exact hs

theorem goroutinesLater_step (hf : StoredFirst s) (hs : GoroutinesLater s)
    (h : step s e = some t) : GoroutinesLater t := by
  intro ht
  by_cases hstart : e = .startGoroutines
  · subst hstart
    cases step_move h with
    | startGoroutines => rcases ht with ht | ht | ht <;> cases ht
  refine unstarted_kept h hstart ?_
  by_cases he : ofOpener e
  case neg =>
    rw [opener_kept h (Bool.eq_false_iff.mpr he)] at ht
    exact hs ht
  cases step_move h with
  | found ho | stored ho =>
    rw [hf (.inr ho)]
    exact ⟨rfl, rfl⟩
  | dialOk ho => exact hs (.inl ho)
  | setConn ho | connRefused ho => exact hs (.inr (.inl ho))
  | startGoroutines => exact absurd rfl hstart
  | spawn | openCancelled | cancelledBeforeDial | dialErr | openCloseSent | cancelledAfterDial
  | openerCloses | openerDeletes => rcases ht with ht | ht | ht <;> cases ht
  | @dialErrDelete choice | @connectedSent choice =>
    cases choice <;> rcases ht with ht | ht | ht <;> cases ht
  | _ => simp [ofOpener] at he

/-- What the target accepted, against what `sessionWriter` took from the queue. -/
def Delivered (s : Session) : Prop :=
  match s.writer with
  | .notStarted | .select => s.writeCh.taken = s.written ∧ s.unfinished = []
  | .got chunk => s.writeCh.taken = s.written ++ [chunk] ∧ s.unfinished = []
  | .write chunk rest => s.writeCh.taken = s.written ++ [chunk] ∧ s.unfinished ++ rest = chunk
  | _ => targetBytes s <+: s.writeCh.taken.flatten

theorem wrote_delivered {chunk rest bytes : Payload}
    (ht : s.writeCh.taken = s.written ++ [chunk]) (hb : s.unfinished ++ bytes ++ rest = chunk) :
    Delivered (wrote s chunk rest bytes) := by
  unfold wrote
  split
  · exact ⟨ht, rfl⟩
  · exact ⟨ht, hb⟩

theorem delivered_le (hs : Delivered s) : targetBytes s <+: s.writeCh.taken.flatten := by
  unfold Delivered at hs
  split at hs
  case h_4 chunk rest hw =>
    refine ⟨rest, ?_⟩
    simp [targetBytes, hs.1, hs.2]
  case h_5 => exact hs
  all_goals simp [targetBytes, hs.1, hs.2]

theorem delivered_kept (hk : WriterKept s t) (hs : Delivered s) : Delivered t := by
  unfold Delivered targetBytes at hs ⊢
  rw [hk.writer, hk.taken, hk.written, hk.unfinished]
  exact hs

theorem delivered_step (hg : GoroutinesLater s) (hs : Delivered s) (h : step s e = some t) :
    Delivered t := by
  by_cases hstart : e = .startGoroutines
  · subst hstart
    cases step_move h with
    | startGoroutines ho =>
      have hn := (hg (.inr (.inr ho))).1
      simp only [Delivered, hn] at hs
      exact hs
  by_cases he : ofWriter e
  case neg => exact delivered_kept (writerKept_step h (Bool.eq_false_iff.mpr he) hstart) hs
  have hle := delivered_le hs
  cases step_move h with
  | takeChunk hw hq =>
    obtain ⟨-, ht, -⟩ := Fifo.pop_some hq
    simp only [Delivered, hw] at hs
    exact ⟨by rw [ht, hs.1], hs.2⟩
  | connFound hw =>
    simp only [Delivered, hw] at hs
    exact wrote_delivered hs.1 (by simp [hs.2])
  | writeSome hw =>
    simp only [Delivered, hw] at hs
    exact wrote_delivered hs.1 (by rw [List.append_assoc, List.take_append_drop]; exact hs.2)
  | writerLoad => cases s.registered <;> exact hle
  | connGone | deadlineFailed | writerStop | writeFailed | writerCloses | writerDeletes =>
    exact hle
  | _ => simp [ofWriter] at he

/-- The chunks `remoteReader` put on the link, against the bytes it read. -/
def Emitted (s : Session) : Prop :=
  match s.reader with
  | .notStarted | .start => dataOf s.emitted = [] ∧ s.fromTarget = []
  | .read | .check => (dataOf s.emitted).flatten = s.fromTarget
  | .send rest _ => (dataOf s.emitted).flatten ++ rest = s.fromTarget
  | _ => (dataOf s.emitted).flatten <+: s.fromTarget

theorem emitted_le (hs : Emitted s) : (dataOf s.emitted).flatten <+: s.fromTarget := by
  unfold Emitted at hs
  split at hs
  case h_1 => simp [hs.1, hs.2]
  case h_2 => simp [hs.1, hs.2]
  case h_5 rest _ _ => exact ⟨rest, hs⟩
  case h_6 => exact hs
  all_goals rw [hs]

theorem emitted_kept (hk : ReaderKept s t) (hs : Emitted s) : Emitted t := by
  unfold Emitted at hs ⊢
  rw [hk.reader, hk.sent, hk.fromTarget]
  exact hs

theorem emitted_step (hg : GoroutinesLater s) (hs : Emitted s) (h : step s e = some t) :
    Emitted t := by
  by_cases hstart : e = .startGoroutines
  · subst hstart
    cases step_move h with
    | startGoroutines ho =>
      have hn := (hg (.inr (.inr ho))).2
      simp only [Emitted, hn] at hs
      exact hs
  by_cases he : ofReader e
  case neg => exact emitted_kept (readerKept_step h (Bool.eq_false_iff.mpr he) hstart) hs
  have hle := emitted_le hs
  cases step_move h with
  | readerStart hr =>
    simp only [Emitted, hr] at hs
    cases s.conn <;> simp [Emitted, hs.1, hs.2]
  | @targetRead chunk eof hr =>
    simp only [Emitted, hr] at hs
    by_cases hc : chunk = [] <;> cases eof <;> simp [Emitted, afterRead, hc, hs]
  | @chunkSent rest eof hr =>
    simp only [Emitted, hr] at hs
    have hsplit := List.take_append_drop maxPacketData rest
    by_cases hd : rest.drop maxPacketData = []
    · have ht : rest.take maxPacketData = rest := by rw [hd, List.append_nil] at hsplit; exact hsplit
      cases eof <;> simp [Emitted, afterRead, hd, ht, hs]
    · simp [Emitted, hd, hs]
  | readerContinue hr =>
    simp only [Emitted, hr] at hs
    exact hs
  | @readerCloseSent ok =>
    cases ok
    · exact hle
    · simpa [Emitted] using hle
  | chunkFailed | readerStop | readerCloses | readerDeletes => exact hle
  | _ => simp [ofReader] at he

/-- Deleting never un-deletes: the session enters the map only from `spawned`. -/
theorem registered_step (hf : Started s) (h : step s e = some t) (ht : t.registered = true) :
    s.registered = true := by
  refine registered_kept h ?_ ht
  rintro rfl
  cases step_move h with
  | found ho | stored ho => exact absurd ho hf.2

/-- The write queue was given exactly the stream packets the loop loaded, until
the first is lost. A chunk dropped through a done case leaves the session in the
map, so `dropped` has to be part of the account. -/
structure Queued (s : Session) : Prop where
  idle : s.registered = true → s.loop = .idle → s.dropped = false →
    s.writeCh.sent = dataOf s.received
  enqueue : ∀ p, s.loop = .enqueue p → s.dropped = false →
    s.writeCh.sent ++ [p] = dataOf s.received
  closeSend : s.loop = .closeSend → s.registered = false
  le : s.writeCh.sent <+: dataOf s.received

/-- Off the map, only what has been queued is left to account for. -/
theorem Queued.gone (hr : s.registered = false) (hle : s.writeCh.sent <+: dataOf s.received)
    (hl : ∀ p, s.loop ≠ .enqueue p) : Queued s :=
  ⟨fun ht => absurd ht (Bool.eq_false_iff.mp hr), fun p hp => absurd hp (hl p), fun _ => hr, hle⟩

theorem queued_kept (hk : LoopKept s t) (hr : t.registered = true → s.registered = true)
    (hs : Queued s) : Queued t := by
  refine ⟨fun ht => ?_, ?_, fun hl => ?_, ?_⟩
  · rw [hk.loop, hk.dropped, hk.sent, hk.received]
    exact hs.idle (hr ht)
  · rw [hk.loop, hk.dropped, hk.sent, hk.received]
    exact hs.enqueue
  · rw [hk.loop] at hl
    have hfalse := hs.closeSend hl
    exact Bool.eq_false_iff.mpr fun ht => by
      rw [hr ht] at hfalse
      cases hfalse
  · rw [hk.sent, hk.received]
    exact hs.le

theorem queued_step (hf : StoredFirst s) (hs : Queued s) (hc : e = .queueData → s.dropped = false)
    (h : step s e = some t) : Queued t := by
  by_cases hstore : e = .loadOrStore
  · subst hstore
    cases step_move h with
    | found ho | stored ho =>
      rw [hf (.inr ho)]
      constructor <;> simp [fresh]
  by_cases he : ofLoop e
  case neg =>
    exact queued_kept (loopKept_step h (Bool.eq_false_iff.mpr he)) (registered_kept h hstore) hs
  obtain ⟨hi, hq, hcs, hle⟩ := hs
  cases step_move h with
  | dataFrame hr hl hd =>
    refine ⟨by simp, ?_, by simp, ?_⟩
    · rintro q hql hdr
      cases hql
      simp [hi hr hl hdr, hd]
    · exact hle.trans (by simp)
  | closeFrame =>
    refine ⟨by simp, by simp, by simp, ?_⟩
    simpa using hle.trans (by simp)
  | @queueData p hl =>
    have hsent : (s.writeCh.push p).sent = dataOf s.received := by
      simpa using hq p hl (hc rfl)
    exact ⟨fun _ _ _ => hsent, by simp, by simp, hsent ▸ List.prefix_rfl⟩
  | dropData | overflow | loopCloses => exact ⟨by simp, by simp, by simp, hle⟩
  | overflowLoad =>
    cases s.registered
    · exact .gone rfl hle (by simp)
    · exact ⟨by simp, by simp, by simp, hle⟩
  | loopCloseSent hl => exact .gone (hcs hl) hle (by simp)
  | @loopDeletes reply => cases reply <;> exact .gone rfl hle (by simp)
  | _ => simp [ofLoop] at he

/-- Everything that holds of a worker session whatever its surroundings do. -/
structure Inv (s : Session) : Prop where
  storedFirst : StoredFirst s
  goroutinesLater : GoroutinesLater s
  delivered : Delivered s
  emitted : Emitted s

theorem inv_fresh : Inv fresh :=
  ⟨fun _ => rfl, by simp [GoroutinesLater, fresh], ⟨rfl, rfl⟩, ⟨rfl, rfl⟩⟩

theorem queued_fresh : Queued fresh := ⟨by simp [fresh], by simp [fresh], by simp [fresh], by simp [fresh]⟩

theorem inv_step (hs : Inv s) (h : step s e = some t) : Inv t :=
  ⟨storedFirst_step hs.storedFirst h, goroutinesLater_step hs.storedFirst hs.goroutinesLater h,
    delivered_step hs.goroutinesLater hs.delivered h,
    emitted_step hs.goroutinesLater hs.emitted h⟩

/-- The target receives an initial segment of the stream the loop was given. -/
theorem targetBytes_le (hs : Inv s) (hq : Queued s) :
    targetBytes s <+: (dataOf s.received).flatten :=
  (delivered_le hs.delivered).trans ((flatten_mono s.writeCh.ordered).trans (flatten_mono hq.le))

end SplitProxy.WorkerSession
