import SplitProxy.WorkerSession

/-!
# The tail of a stream at the worker

The worker's side of the question: the loop queues the stream for
`sessionWriter` and runs `closeSession` itself, so what the target still gets
depends on how far the writer has come when the connection is closed.
-/
namespace SplitProxy.WorkerTail

open Runs WorkerSession

/-- Frames the loop has still to read, and the session they are for. -/
structure WorkerRun where
  frames : List Packet
  session : Session

inductive WorkerEvent where
  | read
  | session (e : Event)
  deriving DecidableEq, Repr

/-- The loop reads a frame: a session no longer in the map ignores it. -/
def workerRead (s : WorkerRun) : Option WorkerRun :=
  match s.frames with
  | [] => none
  | f :: rest =>
    if s.session.loop = .idle then
      if s.session.registered then
        (step s.session (.frame f.1 f.2)).map (⟨rest, ·⟩)
      else some { s with frames := rest }
    else none

def workerStep (s : WorkerRun) : WorkerEvent → Option WorkerRun
  | .read => workerRead s
  | .session (.frame _ _) => none
  | .session e => (step s.session e).map (⟨s.frames, ·⟩)

/-- `openTCP` has returned with the session connected; `d1` .. `dn` and `CmdClose` are on their way. -/
def workerStart (ds : List Payload) : WorkerRun :=
  ⟨ds.map (fun d => (.data, d)) ++ [(.close, [])],
    { fresh with
      registered := true
      conn := true
      target := .opened
      opener := .returned
      writer := .select
      reader := .start
      emitted := [(.connected, [])] }⟩

/-- The chunk the loop holds between loading the session and its select. -/
def loopChunk (s : Session) : List Payload :=
  match s.loop with
  | .enqueue p => [p]
  | _ => []

/-- The chunk `sessionWriter` has taken and not yet written completely. -/
def held (s : Session) : List Payload :=
  match s.writer with
  | .got chunk => [chunk]
  | .write chunk _ => [chunk]
  | _ => []

/-- Stream chunks not yet taken by the select of `sessionWriter`. -/
def workerPending (s : WorkerRun) : List Payload :=
  s.session.writeCh.queue ++ loopChunk s.session ++ dataOf s.frames

/-- The target accepts every write: one fails only on a connection that is closed. -/
def TargetServes (s : WorkerRun) (e : WorkerEvent) : Prop :=
  e = .session .writeFailed ∨ e = .session .deadlineFailed → s.session.target ≠ .opened

/-- The connection is closed only when `sessionWriter` holds no chunk and none
is queued or still to be read; neither it nor the loop gives a chunk up. -/
def WorkerDrained (s : WorkerRun) : WorkerEvent → Prop
  | .session .closeConn => held s.session = [] ∧ workerPending s = []
  | .session .connGone => False
  | .session (.dropData _) => False
  | .read => s.session.registered = false → dataOf (s.frames.take 1) = []
  | _ => True

variable {s t : Session} {e : Event}

/-- The socket of a connected session: `Session.close` takes it and closes it, once. -/
def SocketFollows (s : Session) : Prop :=
  s.opener = .returned ∧
    match s.stage with
    | .opened | .doneClosed => s.conn = true ∧ s.target = .opened
    | .connTaken had => had = true ∧ s.conn = false ∧ s.target = .opened
    | .closed => s.conn = false ∧ s.target = .closed

/-- An `openTCP` that has returned takes no step. -/
theorem opener_returned (ho : s.opener = .returned) (h : step s e = some t) : ofOpener e = false := by
  cases step_move h with
  | spawn hpc | openCancelled hpc | found hpc | stored hpc | cancelledBeforeDial hpc | dialOk hpc
  | dialErr hpc | dialErrDelete hpc | openCloseSent hpc | cancelledAfterDial hpc
  | connRefused hpc | setConn hpc | startGoroutines hpc | connectedSent hpc | openerCloses hpc
  | openerDeletes hpc => simp [ho] at hpc
  | _ => rfl

/-- The steps inside `Session.close`. -/
def ofClose : Event → Bool
  | .closeBegin _ | .closeTakeConn | .closeConn => true
  | _ => false

structure SocketKept (s t : Session) : Prop where
  conn : t.conn = s.conn
  target : t.target = s.target
  stage : t.stage = s.stage

/-- Besides `openTCP`, only `Session.close` touches the socket. -/
theorem socketKept_step (h : step s e = some t) (ho : ofOpener e = false) (he : ofClose e = false) :
    SocketKept s t := by
  cases step_move h with
  | dialOk | cancelledAfterDial | connRefused | setConn => cases ho
  | closeBegin | closeTakeConn | closeConn => cases he
  | connFound | writeSome => exact ⟨wrote_conn .., wrote_target .., wrote_stage ..⟩
  | _ => exact ⟨rfl, rfl, rfl⟩

theorem socketFollows_step (hs : SocketFollows s) (h : step s e = some t) : SocketFollows t := by
  obtain ⟨ho, hst⟩ := hs
  have hopener := opener_returned ho h
  refine ⟨(opener_kept h hopener).trans ho, ?_⟩
  by_cases he : ofClose e
  case neg =>
    have hk := socketKept_step h hopener (Bool.eq_false_iff.mpr he)
    rw [hk.stage, hk.conn, hk.target]
    exact hst
  cases step_move h with
  | closeBegin _ hp =>
    simp only [hp] at hst
    exact hst
  | closeTakeConn hp =>
    simp only [hp] at hst
    exact ⟨hst.1, rfl, hst.2⟩
  | closeConn hp =>
    simp only [hp] at hst
    exact ⟨hst.2.1, if_pos hst.1⟩
  | _ => simp [ofClose] at he

/-- The chunks the session still accounts for, in stream order. -/
def workerAccount (s : Session) : List Payload :=
  s.written ++ (held s ++ (s.writeCh.queue ++ loopChunk s))

/-- The partial-write loop moves a chunk from the writer's hands to the target. -/
theorem wrote_account {chunk rest bytes : Payload} (hw : held s = [chunk]) :
    workerAccount (wrote s chunk rest bytes) = workerAccount s := by
  by_cases hr : rest = []
  · simp only [wrote, hr, ↓reduceIte, workerAccount, hw]
    simp [held, loopChunk]
  · simp only [wrote, hr, ↓reduceIte, workerAccount, hw]
    simp [held, loopChunk]

/-- The events that give a chunk up. -/
def loses : Event → Bool
  | .overflow | .dropData _ | .connGone | .deadlineFailed | .writeFailed => true
  | _ => false

theorem account_kept (hw : WriterKept s t) (hl : LoopKept s t) : workerAccount t = workerAccount s := by
  have hqueue : t.writeCh.queue = s.writeCh.queue := by
    rw [Fifo.queue, Fifo.queue, hl.sent, hw.taken]
  have hheld : held t = held s := by
    rw [held, held, hw.writer]
  have hloop : loopChunk t = loopChunk s := by
    rw [loopChunk, loopChunk, hl.loop]
  rw [workerAccount, workerAccount, hw.written, hheld, hqueue, hloop]

theorem account_writer (h : step s e = some t) (hw : ofWriter e = true) (he : loses e = false) :
    workerAccount t = workerAccount s := by
  cases step_move h with
  | takeChunk hpc hq =>
    obtain ⟨-, -, hqueue⟩ := Fifo.pop_some hq
    simp [workerAccount, held, loopChunk, hpc, hqueue]
  | connFound hpc | writeSome hpc => exact wrote_account (by simp [held, hpc])
  | writerLoad hpc => cases s.registered <;> simp [workerAccount, held, loopChunk, hpc]
  | writerStop hpc | writerCloses hpc | writerDeletes hpc =>
    simp [workerAccount, held, loopChunk, hpc]
  | connGone | deadlineFailed | writeFailed => cases he
  | _ => simp [ofWriter] at hw

theorem account_loop (h : step s e = some t) (hl : ofLoop e = true) (he : loses e = false)
    (hf : ∀ c p, e ≠ .frame c p) : workerAccount t = workerAccount s := by
  cases step_move h with
  | dataFrame | closeFrame => exact absurd rfl (hf _ _)
  | queueData hpc | loopCloseSent hpc | loopCloses hpc =>
    simp [workerAccount, held, loopChunk, hpc]
  | overflowLoad hpc => cases s.registered <;> simp [workerAccount, held, loopChunk, hpc]
  | @loopDeletes reply hpc => cases reply <;> simp [workerAccount, held, loopChunk, hpc]
  | overflow | dropData => cases he
  | _ => simp [ofLoop] at hl

theorem workerAccount_step (hs : SocketFollows s) (h : step s e = some t) (he : loses e = false)
    (hf : ∀ c p, e ≠ .frame c p) : workerAccount t = workerAccount s := by
  by_cases hw : ofWriter e
  · exact account_writer h hw he
  by_cases hl : ofLoop e
  · exact account_loop h hl he hf
  · have hstart : e ≠ .startGoroutines := by
      rintro rfl
      cases opener_returned hs.1 h
    exact account_kept (writerKept_step h (Bool.eq_false_iff.mpr hw) hstart)
      (loopKept_step h (Bool.eq_false_iff.mpr hl))

/-- Giving a chunk up shortens the account, nothing lengthens it except a frame. -/
theorem workerAccount_le (hs : SocketFollows s) (h : step s e = some t)
    (hf : ∀ c p, e ≠ .frame c p) : (workerAccount t).length ≤ (workerAccount s).length := by
  by_cases he : loses e = false
  · rw [workerAccount_step hs h he hf]
  · cases step_move h with
    | overflow hpc | dropData hpc | connGone hpc | deadlineFailed hpc | writeFailed hpc =>
      simp [workerAccount, held, loopChunk, hpc]
    | _ => exact absurd rfl he

/-- Only a write, or its empty remainder, completes a chunk. -/
theorem written_kept (h : step s e = some t) (hfound : e ≠ .connFound)
    (hsome : ∀ n, e ≠ .writeSome n) (hstart : e ≠ .startGoroutines) : t.written = s.written := by
  by_cases he : ofWriter e
  case neg => exact (writerKept_step h (Bool.eq_false_iff.mpr he) hstart).written
  cases step_move h with
  | connFound => exact absurd rfl hfound
  | writeSome => exact absurd rfl (hsome _)
  | _ => rfl

/-- A closed socket stays closed, and the target gets nothing more. -/
theorem closed_step (hs : SocketFollows s) (hc : s.target = .closed) (h : step s e = some t) :
    t.target = .closed ∧ t.written = s.written := by
  obtain ⟨ho, hst⟩ := hs
  have hstage : s.stage = .closed := by
    cases hk : s.stage <;> simp_all
  simp only [hstage] at hst
  have hopener := opener_returned ho h
  have hclose : ofClose e = false := by
    cases step_move h with
    | closeBegin _ hp | closeTakeConn hp | closeConn hp => simp [hstage] at hp
    | _ => rfl
  refine ⟨(socketKept_step h hopener hclose).target.trans hc, written_kept h ?_ ?_ ?_⟩
  · rintro rfl
    cases step_move h with
    | connFound _ hconn => simp [hst.1] at hconn
  · rintro n rfl
    cases step_move h with
    | writeSome _ _ htarget => simp [hc] at htarget
  · rintro rfl
    cases hopener

/-- Only `conn.Close` closes an open socket, with the conn `Session.close` took. -/
theorem closing_step (hs : SocketFollows s) (ho : s.target = .opened) (h : step s e = some t)
    (ht : t.target ≠ .opened) : e = .closeConn ∧ t.written = s.written := by
  have hopener := opener_returned hs.1 h
  by_cases he : ofClose e
  case neg =>
    have hk := socketKept_step h hopener (Bool.eq_false_iff.mpr he)
    exact absurd (hk.target.trans ho) ht
  cases step_move h with
  | closeConn => exact ⟨rfl, rfl⟩
  | closeBegin | closeTakeConn => exact absurd ho ht
  | _ => simp [ofClose] at he

theorem closeConn_some (hs : SocketFollows s) (h : step s .closeConn = some t) :
    s.target = .opened ∧ t.target = .closed ∧ t.written = s.written := by
  obtain ⟨-, hst⟩ := hs
  cases step_move h with
  | closeConn hk => simp_all

theorem workerStep_session {s t : WorkerRun} (h : workerStep s (.session e) = some t) :
    step s.session e = some t.session ∧ t.frames = s.frames ∧ ∀ c p, e ≠ .frame c p := by
  unfold workerStep at h
  split at h
  · simp_all
  · cases h
  · rename_i e' hne he
    cases he
    obtain ⟨t', ht, rfl⟩ := Option.map_eq_some_iff.mp h
    exact ⟨ht, rfl, hne⟩

/-- Everything the run still accounts for: written, held by the writer or pending. -/
def workerTotal (s : WorkerRun) : List Payload :=
  s.session.written ++ (held s.session ++ workerPending s)

theorem workerTotal_eq (s : WorkerRun) :
    workerTotal s = workerAccount s.session ++ dataOf s.frames := by
  simp [workerTotal, workerPending, workerAccount]

/-- Reading a frame moves its chunk, and loses it only on a session that is gone. -/
theorem workerTotal_read {s t : WorkerRun} (h : workerStep s .read = some t) :
    t.session.target = s.session.target ∧ t.session.written = s.session.written ∧
      (SocketFollows s.session → SocketFollows t.session) ∧
      ((s.session.registered = true ∧ workerTotal t = workerTotal s) ∨
        (s.session.registered = false ∧
          dataOf (s.frames.take 1) ++ dataOf t.frames = dataOf s.frames ∧ t.session = s.session)) := by
  simp only [workerStep, workerRead] at h
  split at h
  · cases h
  · rename_i f rest hf
    obtain ⟨c, p⟩ := f
    split at h
    · rename_i hl
      have hd : dataOf s.frames = dataOf [(c, p)] ++ dataOf rest := by
        rw [hf, ← List.singleton_append, dataOf_append]
      split at h
      · rename_i hr
        obtain ⟨t', ht, rfl⟩ := Option.map_eq_some_iff.mp h
        obtain ⟨-, -, hcase⟩ := frame_some ht
        rcases hcase with ⟨hc, rfl⟩ | ⟨hc, rfl⟩
        · refine ⟨rfl, rfl, id, .inl ⟨hr, ?_⟩⟩
          have hc : c.carriesData = true := hc
          simp [workerTotal, workerPending, held, loopChunk, hl, hd, hc]
        · refine ⟨rfl, rfl, id, .inl ⟨hr, ?_⟩⟩
          have hc : c = .close := hc
          simp [workerTotal, workerPending, held, loopChunk, hl, hd, hc]
      · rename_i hr
        cases h
        refine ⟨rfl, rfl, id, .inr ⟨by simpa using hr, ?_, rfl⟩⟩
        rw [hf, List.take_succ_cons, List.take_zero, ← dataOf_append, List.singleton_append]
    · cases h

theorem socketFollows_run {s t : WorkerRun} {e : WorkerEvent} (hs : SocketFollows s.session)
    (h : workerStep s e = some t) : SocketFollows t.session := by
  cases e with
  | read => exact (workerTotal_read h).2.2.1 hs
  | session e => exact socketFollows_step hs (workerStep_session h).1

/-- Chunks that can still reach the target, counting those that have. -/
def workerHope (s : WorkerRun) : Nat :=
  if s.session.target = .opened then (workerTotal s).length else s.session.written.length

theorem target_closed (hs : SocketFollows s) (ho : s.target ≠ .opened) : s.target = .closed := by
  obtain ⟨-, hst⟩ := hs
  cases hk : s.stage <;> simp_all

/-- No event raises the hope of delivering one more chunk. -/
theorem workerHope_step {s t : WorkerRun} {e : WorkerEvent} (hs : SocketFollows s.session)
    (h : workerStep s e = some t) : workerHope t ≤ workerHope s := by
  cases e with
  | read =>
    obtain ⟨hl, hw, -, ⟨-, ht⟩ | ⟨-, hd, ht⟩⟩ := workerTotal_read h
    · rw [workerHope, workerHope, hl, hw, ht]
    · have htot : (workerTotal t).length ≤ (workerTotal s).length := by
        rw [workerTotal_eq, workerTotal_eq, ht, ← hd, List.length_append, List.length_append,
          List.length_append]
        omega
      rw [workerHope, workerHope, hl, hw]
      split
      · exact htot
      · exact le_refl _
  | session e =>
    obtain ⟨hst, hf, hne⟩ := workerStep_session h
    have hle := workerAccount_le hs hst hne
    have htot : (workerTotal t).length ≤ (workerTotal s).length := by
      rw [workerTotal_eq, workerTotal_eq, hf, List.length_append, List.length_append]
      omega
    have hwt : t.session.written.length ≤ (workerTotal t).length := by
      simp [workerTotal]
    by_cases ho : s.session.target = .opened
    · simp only [workerHope, ho, ↓reduceIte]
      split <;> omega
    · have hc := target_closed hs ho
      obtain ⟨htc, hw⟩ := closed_step hs hc hst
      simp only [workerHope, ho, htc, hw, ↓reduceIte, reduceCtorEq, le_refl]

/-- What holds as long as every step so far was drained: nothing is lost. -/
structure Kept (ds : List Payload) (s : WorkerRun) : Prop where
  total : workerTotal s = ds
  gone : s.session.target ≠ .opened → s.session.written = ds

theorem kept_start (ds : List Payload) : Kept ds (workerStart ds) := by
  have hd : dataOf (workerStart ds).frames = ds := by
    rw [workerStart, dataOf_append, dataOf_data]
    simp
  refine ⟨?_, by simp [workerStart]⟩
  rw [workerTotal_eq, hd]
  simp [workerStart, workerAccount, held, loopChunk, fresh]

/-- Once the socket is closed on a kept run, nothing is in anyone's hands. -/
theorem Kept.nothing_left {ds : List Payload} {s : WorkerRun} (hs : Kept ds s)
    (hc : s.session.target ≠ .opened) : held s.session = [] ∧ workerPending s = [] := by
  have htot := hs.total
  rw [workerTotal, hs.gone hc] at htot
  exact List.append_eq_nil_iff.mp (List.append_right_eq_self.mp htot)

/-- What a served run is spared: a target that refuses a write, a full queue. -/
def Served (s : WorkerRun) (e : WorkerEvent) : Prop :=
  TargetServes s e ∧ e ≠ .session .overflow

theorem loses_some (h : step s e = some t) (he : loses e = true) :
    e = .overflow ∨ (e ≠ .overflow ∧ t.target = s.target ∧
      (workerAccount t).length < (workerAccount s).length ∧ (held s ≠ [] ∨ loopChunk s ≠ [])) := by
  cases e
  case overflow => exact .inl rfl
  case dropData _ | connGone | deadlineFailed | writeFailed =>
    right
    simp only [step] at h
    repeat' split at h
    all_goals try cases h
    all_goals simp_all [workerAccount, held, loopChunk]
  all_goals simp [loses] at he

/-- On a served run that has lost nothing, a drained step gives no chunk up. -/
theorem no_loss {ds : List Payload} {s t : WorkerRun} {e : Event} (hs : Kept ds s)
    (hc : Served s (.session e)) (hd : WorkerDrained s (.session e))
    (h : step s.session e = some t.session) : loses e = false := by
  obtain ⟨hserve, hov⟩ := hc
  cases e
  case overflow => exact absurd rfl hov
  case dropData _ | connGone => exact absurd hd id
  case deadlineFailed | writeFailed =>
    have hheld := (hs.nothing_left (hserve (by simp))).1
    rcases loses_some h rfl with he | ⟨-, -, -, hh | hl⟩
    · cases he
    · exact absurd hheld hh
    · simp only [step] at h
      repeat' split at h
      all_goals try cases h
      all_goals simp_all [held]
  all_goals rfl

theorem kept_step {ds : List Payload} {s t : WorkerRun} {e : WorkerEvent}
    (hk : SocketFollows s.session) (hs : Kept ds s) (hc : Served s e) (hd : WorkerDrained s e)
    (h : workerStep s e = some t) : Kept ds t := by
  cases e with
  | read =>
    obtain ⟨hl, hw, -, hcase⟩ := workerTotal_read h
    have htot : workerTotal t = workerTotal s := by
      rcases hcase with ⟨-, ht⟩ | ⟨hr, hf, ht⟩
      · exact ht
      · rw [hd hr, List.nil_append] at hf
        rw [workerTotal_eq, workerTotal_eq, ht, hf]
    exact ⟨by rw [htot]; exact hs.total, by rw [hl, hw]; exact hs.gone⟩
  | session e =>
    obtain ⟨hst, hf, hne⟩ := workerStep_session h
    have htot : workerTotal t = workerTotal s := by
      rw [workerTotal_eq, workerTotal_eq, hf,
        workerAccount_step hk hst (no_loss hs hc hd hst) hne]
    refine ⟨by rw [htot]; exact hs.total, fun hlt => ?_⟩
    by_cases ho : s.session.target = .opened
    · obtain ⟨rfl, hw⟩ := closing_step hk ho hst hlt
      rw [hw, ← hs.total, workerTotal, hd.1, hd.2, List.nil_append, List.append_nil]
    · rw [(closed_step hk (target_closed hk ho) hst).2]
      exact hs.gone ho

/-- The first step that is not drained loses a chunk for good. -/
theorem hope_lost {ds : List Payload} {s t : WorkerRun} {e : WorkerEvent}
    (hk : SocketFollows s.session) (hs : Kept ds s) (hd : ¬WorkerDrained s e)
    (h : workerStep s e = some t) : workerHope t < ds.length := by
  have hopen : held s.session ≠ [] ∨ workerPending s ≠ [] → s.session.target = .opened := by
    intro hp
    by_contra hc
    have hnl := hs.nothing_left hc
    rcases hp with hp | hp
    · exact hp hnl.1
    · exact hp hnl.2
  have htot := congrArg List.length hs.total
  cases e with
  | read =>
    obtain ⟨hr, hne⟩ := Classical.not_imp.mp hd
    obtain ⟨hl, -, -, ⟨hr', -⟩ | ⟨-, hf, ht⟩⟩ := workerTotal_read h
    · rw [hr] at hr'
      cases hr'
    · have hlen := congrArg List.length hf
      have hpos := List.length_pos_iff.mpr hne
      have hpend : workerPending s ≠ [] := by
        intro hp
        simp only [workerPending, List.append_eq_nil_iff] at hp
        rw [hp.2, List.append_eq_nil_iff] at hf
        exact hne hf.1
      rw [workerTotal_eq] at htot
      rw [workerHope, hl, hopen (.inr hpend), workerTotal_eq, ht]
      simp only [List.length_append, ↓reduceIte] at hlen htot ⊢
      omega
  | session e =>
    obtain ⟨hst, hf, -⟩ := workerStep_session h
    have hgive : loses e = true → e ≠ .overflow → workerHope t < ds.length := by
      intro he hov
      rcases loses_some hst he with ho | ⟨-, htt, hlt, hheld⟩
      · exact absurd ho hov
      · have hpend : held s.session ≠ [] ∨ workerPending s ≠ [] := by
          refine hheld.imp_right fun hc hp => ?_
          simp only [workerPending, List.append_eq_nil_iff] at hp
          exact hc hp.1.2
        rw [workerTotal_eq] at htot
        rw [workerHope, htt, hopen hpend, workerTotal_eq, hf]
        simp only [List.length_append, ↓reduceIte] at htot ⊢
        omega
    cases e
    case closeConn =>
      obtain ⟨-, htc, hw⟩ := closeConn_some hk hst
      have hpos : 0 < (held s.session ++ workerPending s).length := by
        refine List.length_pos_iff.mpr fun hnil => ?_
        exact hd (List.append_eq_nil_iff.mp hnil)
      rw [workerTotal, List.length_append] at htot
      simp only [workerHope, htc, hw, reduceCtorEq, ↓reduceIte]
      omega
    case connGone => exact hgive rfl (by simp)
    case dropData linkDown => exact hgive rfl (by simp)
    all_goals exact absurd trivial hd

theorem socketFollows_start (ds : List Payload) : SocketFollows (workerStart ds).session := by
  simp [SocketFollows, workerStart, fresh]

/-- The worker end delivers everything exactly when every step is drained. -/
theorem delivered_iff_drained {ds : List Payload} {es : List WorkerEvent} {t : WorkerRun}
    (hr : run workerStep (workerStart ds) es = some t)
    (hc : Meets workerStep Served (workerStart ds) es) (hclosed : t.session.target = .closed) :
    t.session.written = ds ↔ Meets workerStep WorkerDrained (workerStart ds) es := by
  have hl : t.session.target ≠ .opened := by
    rw [hclosed]
    decide
  constructor
  · intro hw
    have hm : ds.length ≤ workerHope t := by
      simp only [workerHope, hl, hw, ↓reduceIte, le_refl]
    refine @meets_of_measure _ _ _ _ (fun s => SocketFollows s.session) (Kept ds) Served
      workerHope _ ?_ ?_ ?_ ?_ _ _ _ (socketFollows_start ds) (kept_start ds) hc hr hm
    · exact fun _ _ _ hk h => socketFollows_run hk h
    · exact fun _ _ _ hk h => workerHope_step hk h
    · exact fun _ _ _ hk hs hc hd h => kept_step hk hs hc hd h
    · exact fun _ _ _ hk hs _ hd h => hope_lost hk hs hd h
  · intro hm
    have hkept : SocketFollows t.session ∧ Kept ds t := by
      refine @run_invariant _ _ _ _ (fun s => SocketFollows s.session ∧ Kept ds s) ?_ _ _ _
        ⟨socketFollows_start ds, kept_start ds⟩ (meets_and hc hm) hr
      exact fun s e t hs hcd h =>
        ⟨socketFollows_run hs.1 h, kept_step hs.1 hs.2 hcd.1 hcd.2 h⟩
    exact hkept.2.gone hl

end SplitProxy.WorkerTail
