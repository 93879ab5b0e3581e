import SplitProxy.ProxySession

/-!
# The tail of a stream at the proxy

A session end receives its stream frames and then the close frame. The close
travels on `done`, the stream on a queue, so what the client still gets depends
on which of the two the select of `handleBroker` takes. A run here feeds one
session the frames of its link; the result says exactly which runs deliver all
of them.
-/
namespace SplitProxy.ProxyTail

open Runs ProxySession

/-- Frames `readLoop` has still to read, and the session they are for. -/
structure ProxyRun where
  frames : List Packet
  session : Session

inductive ProxyEvent where
  | read
  | session (e : Event)
  deriving DecidableEq, Repr

/-- `readLoop` reads a frame: a session no longer in the map ignores it. -/
def proxyRead (s : ProxyRun) : Option ProxyRun :=
  match s.frames with
  | [] => none
  | f :: rest =>
    if s.session.loop = .idle then
      if s.session.registered then
        (step s.session (.frame f.1 f.2)).map (⟨rest, ·⟩)
      else some { s with frames := rest }
    else none

def proxyStep (s : ProxyRun) : ProxyEvent → Option ProxyRun
  | .read => proxyRead s
  | .session (.frame _ _) => none
  | .session e => (step s.session e).map (⟨s.frames, ·⟩)

/-- `openSession` has returned; `CmdConnected`, `p1` .. `pn` and `CmdClose` are on their way. -/
def proxyStart (ps : List Payload) : ProxyRun :=
  ⟨(.connected, []) :: ps.map (fun p => (.data, p)) ++ [(.close, [])],
    { stored with handler := .waitConnected }⟩

/-- The chunk `readLoop` holds between loading the session and its select. -/
def loopChunk (s : Session) : List Payload :=
  match s.loop with
  | .handling cmd p => dataOf [(cmd, p)]
  | _ => []

/-- The message `client.Write` is working on. -/
def writing (s : Session) : List Payload :=
  match s.handler with
  | .write msg _ => [msg]
  | _ => []

/-- Stream chunks not yet taken by the select of `handleBroker`. -/
def proxyPending (s : ProxyRun) : List Payload :=
  s.session.data.queue ++ loopChunk s.session ++ dataOf s.frames

/-- `handleBroker` has left its waiting and select states for good. -/
def left (s : Session) : Bool :=
  match s.handler with
  | .closeCheck | .closeSend | .closeDelete _ | .closeDone _ | .returned => true
  | _ => false

/-- The client keeps its side open and accepts every write. -/
def ClientServes (e : ProxyEvent) : Prop :=
  e ≠ .session .responseFailed ∧ e ≠ .session .writeFailed ∧ e ≠ .session .clientEOF

/-- `handleBroker` leaves by a done case only when no chunk is queued or still
to be read, and `readLoop` loses none of them on the way. -/
def ProxyDrained (s : ProxyRun) : ProxyEvent → Prop
  | .session .connectFailed | .session .connectClosed | .session .selectDone
  | .session .selectClientDone => proxyPending s = []
  | .session .dropData => False
  | .read => s.session.registered = false → dataOf (s.frames.take 1) = []
  | _ => True

variable {s t : Session} {e : Event}

/-- The chunks a session end still accounts for, in stream order. -/
def proxyAccount (s : Session) : List Payload :=
  s.written ++ (writing s ++ (s.data.queue ++ loopChunk s))

theorem account_kept (hh : HandlerKept s t) (hl : LoopKept s t) : proxyAccount t = proxyAccount s := by
  have hqueue : t.data.queue = s.data.queue := by
    rw [Fifo.queue, Fifo.queue, hl.sent, hh.taken]
  have hwriting : writing t = writing s := by
    rw [writing, writing, hh.handler]
  have hloop : loopChunk t = loopChunk s := by
    rw [loopChunk, loopChunk, hl.loop]
  rw [proxyAccount, proxyAccount, hh.written, hwriting, hqueue, hloop]

theorem account_handler (h : step s e = some t) (he : ofHandler e = true) (hf : e ≠ .writeFailed) :
    proxyAccount t = proxyAccount s := by
  cases step_move h with
  | takeData hp hq =>
    obtain ⟨-, -, hqueue⟩ := Fifo.pop_some hq
    simp [proxyAccount, writing, loopChunk, hp, hqueue]
  | writeFailed => exact absurd rfl hf
  | closeChecked hp => cases s.done <;> simp [proxyAccount, writing, loopChunk, hp]
  | requestSent hp | requestFailed hp | connectOk hp | connectFailed hp | connectClosed hp
  | responseOk hp | responseFailed hp | writeSome hp | writeDone hp | selectDone hp
  | selectClientDone hp | closeSent hp | closeDelete hp | closeDone hp =>
    simp [proxyAccount, writing, loopChunk, hp]
  | _ => cases he

theorem account_loop (h : step s e = some t) (he : ofLoop e = true)
    (hlost : e ≠ .overflow ∧ e ≠ .dropData) (hf : ∀ c p, e ≠ .frame c p) :
    proxyAccount t = proxyAccount s := by
  cases step_move h with
  | frame => exact absurd rfl (hf _ _)
  | overflow => exact absurd rfl hlost.1
  | dropData => exact absurd rfl hlost.2
  | signalConnected hl | loopClose hl => simp [proxyAccount, writing, loopChunk, hl]
  | queueData hl hc | remoteEnd hl hc | ignoreFrame hl hc =>
    simp [proxyAccount, writing, loopChunk, hl, hc]
  | _ => cases he

/-- No event but the three lossy ones and a new frame changes the account. -/
theorem proxyAccount_step (h : step s e = some t)
    (he : e ≠ .overflow ∧ e ≠ .dropData ∧ e ≠ .writeFailed) (hf : ∀ c p, e ≠ .frame c p) :
    proxyAccount t = proxyAccount s := by
  by_cases hh : ofHandler e
  · exact account_handler h hh he.2.2
  by_cases hl : ofLoop e
  · exact account_loop h hl ⟨he.1, he.2.1⟩ hf
  · exact account_kept (handlerKept_step h (Bool.eq_false_iff.mpr hh))
      (loopKept_step h (Bool.eq_false_iff.mpr hl))

/-- Having left, `handleBroker` stays away and writes nothing more. -/
theorem left_step (hl : left s = true) (h : step s e = some t) :
    left t = true ∧ t.written = s.written := by
  by_cases he : ofHandler e
  case neg =>
    have hk := handlerKept_step h (Bool.eq_false_iff.mpr he)
    rw [left, hk.handler]
    exact ⟨hl, hk.written⟩
  cases step_move h with
  | closeChecked => cases s.done <;> exact ⟨rfl, rfl⟩
  | closeSent | closeDelete => exact ⟨rfl, rfl⟩
  | closeDone => exact ⟨rfl, close_written _ _⟩
  | requestSent hp | requestFailed hp | connectOk hp | connectFailed hp | connectClosed hp
  | responseOk hp | responseFailed hp | takeData hp | writeSome hp | writeDone hp
  | writeFailed hp | selectDone hp | selectClientDone hp =>
    -- `handleBroker` has not left where it could do this
    simp [left, hp] at hl
  | _ => simp [ofHandler] at he

/-- The events by which `handleBroker` leaves. -/
def leaves : Event → Bool
  | .requestFailed | .connectFailed | .connectClosed | .responseFailed | .writeFailed
  | .selectDone | .selectClientDone => true
  | _ => false

theorem left_enter (hs : left s = false) (h : step s e = some t) (ht : left t = true) :
    leaves e = true := by
  by_cases he : ofHandler e
  case neg =>
    rw [left, (handlerKept_step h (Bool.eq_false_iff.mpr he)).handler] at ht
    exact absurd (hs.symm.trans ht) Bool.false_ne_true
  cases step_move h with
  | requestFailed | connectFailed | connectClosed | responseFailed | writeFailed | selectDone
  | selectClientDone => rfl
  | requestSent | connectOk | responseOk | takeData | writeSome | writeDone => cases ht
  | closeChecked hp | closeSent hp | closeDelete hp | closeDone hp =>
    -- these come after it has left
    simp [left, hp] at hs
  | _ => cases he

theorem writing_of_left (hs : left s = true) : writing s = [] := by
  unfold left at hs
  unfold writing
  split
  · rename_i hw
    simp [hw] at hs
  · rfl

/-- Losing a chunk shortens the account, nothing lengthens it except a frame. -/
theorem proxyAccount_le (h : step s e = some t) (hf : ∀ c p, e ≠ .frame c p) :
    (proxyAccount t).length ≤ (proxyAccount s).length := by
  by_cases he : e ≠ .overflow ∧ e ≠ .dropData ∧ e ≠ .writeFailed
  · rw [proxyAccount_step h he hf]
  · have hcase : e = .overflow ∨ e = .dropData ∨ e = .writeFailed := by tauto
    rcases hcase with rfl | rfl | rfl
    · cases step_move h with
      | overflow hl hc => simp [proxyAccount, writing, loopChunk, hl, hc]
    · cases step_move h with
      | dropData hl hc => simp [proxyAccount, writing, loopChunk, hl, hc]
    · cases step_move h with
      | writeFailed hp => simp [proxyAccount, writing, loopChunk, hp]

theorem proxyStep_session {s t : ProxyRun} (h : proxyStep s (.session e) = some t) :
    step s.session e = some t.session ∧ t.frames = s.frames ∧ ∀ c p, e ≠ .frame c p := by
  unfold proxyStep at h
  split at h
  · simp_all
  · cases h
  · rename_i e' hne he
    cases he
    obtain ⟨t', ht, rfl⟩ := Option.map_eq_some_iff.mp h
    exact ⟨ht, rfl, hne⟩

/-- The two ways `readLoop` consumes the next frame. -/
theorem proxyRead_some {s t : ProxyRun} (h : proxyStep s .read = some t) :
    ∃ f, s.frames = f :: t.frames ∧ s.session.loop = .idle ∧
      ((s.session.registered = true ∧ t.session = { s.session with
          loop := .handling f.1 f.2, received := s.session.received ++ [(f.1, f.2)] }) ∨
        (s.session.registered = false ∧ t.session = s.session)) := by
  simp only [proxyStep, proxyRead] at h
  split at h
  · cases h
  · rename_i f rest hf
    split at h
    · rename_i hl
      split at h
      · obtain ⟨t', ht, rfl⟩ := Option.map_eq_some_iff.mp h
        obtain ⟨hr, -, rfl⟩ := frame_some ht
        exact ⟨f, hf, hl, .inl ⟨hr, rfl⟩⟩
      · rename_i hr
        cases h
        exact ⟨f, hf, hl, .inr ⟨by simpa using hr, rfl⟩⟩
    · cases h

/-- Everything the run still accounts for: written, being written or pending. -/
def proxyTotal (s : ProxyRun) : List Payload :=
  s.session.written ++ (writing s.session ++ proxyPending s)

theorem proxyTotal_eq (s : ProxyRun) :
    proxyTotal s = proxyAccount s.session ++ dataOf s.frames := by
  simp [proxyTotal, proxyPending, proxyAccount]

/-- Reading a frame moves its chunk, and loses it only on a session that is gone. -/
theorem proxyTotal_read {s t : ProxyRun} (h : proxyStep s .read = some t) :
    left t.session = left s.session ∧ t.session.written = s.session.written ∧
      t.session.handler = s.session.handler ∧
      ((s.session.registered = true ∧ proxyTotal t = proxyTotal s) ∨
        (s.session.registered = false ∧ dataOf (s.frames.take 1) ++ dataOf t.frames = dataOf s.frames ∧
          t.session = s.session)) := by
  obtain ⟨f, hf, hl, ⟨hr, ht⟩ | ⟨hr, ht⟩⟩ := proxyRead_some h
  · refine ⟨by rw [ht]; rfl, by rw [ht], by rw [ht], .inl ⟨hr, ?_⟩⟩
    have hd : dataOf s.frames = dataOf [(f.1, f.2)] ++ dataOf t.frames := by
      rw [hf, ← List.singleton_append, dataOf_append]
    simp [proxyTotal, proxyPending, writing, loopChunk, ht, hl, hd]
  · refine ⟨by rw [ht], by rw [ht], by rw [ht], .inr ⟨hr, ?_, ht⟩⟩
    rw [hf, List.take_succ_cons, List.take_zero, ← dataOf_append, List.singleton_append]

/-- Chunks that can still reach the client, counting those that have. -/
def proxyHope (s : ProxyRun) : Nat :=
  if left s.session then s.session.written.length else (proxyTotal s).length

/-- No event raises the hope of delivering one more chunk. -/
theorem proxyHope_step {s t : ProxyRun} {e : ProxyEvent} (h : proxyStep s e = some t) :
    proxyHope t ≤ proxyHope s := by
  cases e with
  | read =>
    obtain ⟨hl, hw, -, ⟨-, ht⟩ | ⟨-, hd, ht⟩⟩ := proxyTotal_read h
    · rw [proxyHope, proxyHope, hl, hw, ht]
    · have hle : (dataOf t.frames).length ≤ (dataOf s.frames).length := by
        rw [← hd, List.length_append]
        omega
      have htot : (proxyTotal t).length ≤ (proxyTotal s).length := by
        rw [proxyTotal_eq, proxyTotal_eq, ht, List.length_append, List.length_append]
        omega
      rw [proxyHope, proxyHope, hl, hw]
      split
      · exact le_refl _
      · exact htot
  | session e =>
    obtain ⟨hs, hf, hne⟩ := proxyStep_session h
    have hle := proxyAccount_le hs hne
    have htot : (proxyTotal t).length ≤ (proxyTotal s).length := by
      rw [proxyTotal_eq, proxyTotal_eq, hf, List.length_append, List.length_append]
      omega
    have hwt : t.session.written.length ≤ (proxyTotal t).length := by
      simp [proxyTotal]
    cases hl : left s.session with
    | true =>
      obtain ⟨hlt, hw⟩ := left_step hl hs
      simp only [proxyHope, hl, hlt, hw, ↓reduceIte, le_refl]
    | false =>
      simp only [proxyHope, hl, Bool.false_eq_true, ↓reduceIte]
      split <;> omega

/-- What holds as long as every step so far was drained: nothing is lost. -/
structure Kept (ps : List Payload) (s : ProxyRun) : Prop where
  opened : s.session.handler ≠ .sendRequest
  total : proxyTotal s = ps
  gone : left s.session = true → s.session.written = ps

theorem kept_start (ps : List Payload) : Kept ps (proxyStart ps) := by
  refine ⟨by simp [proxyStart], ?_, by simp [proxyStart, left]⟩
  have hf : dataOf (proxyStart ps).frames = ps := by
    rw [proxyStart, ← List.singleton_append, dataOf_append, dataOf_append, dataOf_data]
    simp
  rw [proxyTotal_eq, hf]
  simp [proxyStart, proxyAccount, writing, loopChunk, stored]

theorem handler_step (hs : s.handler ≠ .sendRequest) (h : step s e = some t) :
    t.handler ≠ .sendRequest := by
  cases step_move h with
  | closeChecked => cases s.done <;> simp
  | _ => simp_all

/-- An event that leaves does so at once, and the client gets nothing by it. -/
theorem leaves_step (he : leaves e = true) (h : step s e = some t) :
    left t = true ∧ t.written = s.written := by
  cases step_move h with
  | requestFailed | connectFailed | connectClosed | responseFailed | writeFailed | selectDone
  | selectClientDone => exact ⟨rfl, rfl⟩
  | _ => cases he

/-- Only a failed write leaves while a message is being written. -/
theorem writing_of_leaves (he : leaves e = true) (hw : e ≠ .writeFailed) (h : step s e = some t) :
    writing s = [] := by
  cases step_move h with
  | writeFailed => exact absurd rfl hw
  | requestFailed hp | connectFailed hp | connectClosed hp | responseFailed hp | selectDone hp
  | selectClientDone hp => simp [writing, hp]
  | _ => cases he

/-- What a served run is spared: a client that stops, a full queue. -/
def Served (e : ProxyEvent) : Prop := ClientServes e ∧ e ≠ .session .overflow

/-- A drained leave happens with nothing pending. -/
theorem pending_of_leaving {s t : ProxyRun} {e : Event} (ho : s.session.handler ≠ .sendRequest)
    (hc : Served (.session e)) (hd : ProxyDrained s (.session e)) (hlv : leaves e = true)
    (h : step s.session e = some t.session) : proxyPending s = [] := by
  obtain ⟨⟨hrf, hwf, -⟩, -⟩ := hc
  cases e
  case connectFailed | connectClosed | selectDone | selectClientDone => exact hd
  case requestFailed =>
    generalize t.session = y at h
    cases step_move h with
    | requestFailed hp => exact absurd hp ho
  case responseFailed => exact absurd rfl hrf
  case writeFailed => exact absurd rfl hwf
  all_goals simp [leaves] at hlv

theorem kept_step {ps : List Payload} {s t : ProxyRun} {e : ProxyEvent} (hs : Kept ps s)
    (hc : Served e) (hd : ProxyDrained s e) (h : proxyStep s e = some t) : Kept ps t := by
  cases e with
  | read =>
    obtain ⟨hl, hw, hh, hcase⟩ := proxyTotal_read h
    have htot : proxyTotal t = proxyTotal s := by
      rcases hcase with ⟨-, ht⟩ | ⟨hr, hf, ht⟩
      · exact ht
      · rw [hd hr, List.nil_append] at hf
        rw [proxyTotal_eq, proxyTotal_eq, ht, hf]
    exact ⟨by rw [hh]; exact hs.opened, by rw [htot]; exact hs.total,
      by rw [hl, hw]; exact hs.gone⟩
  | session e =>
    obtain ⟨hst, hf, hne⟩ := proxyStep_session h
    obtain ⟨⟨-, hwf, -⟩, hov⟩ := id hc
    have hwf' : e ≠ .writeFailed := fun he => hwf (by rw [he])
    have hdrop : e ≠ .dropData := by
      rintro rfl
      exact hd
    have htot : proxyTotal t = proxyTotal s := by
      rw [proxyTotal_eq, proxyTotal_eq, hf,
        proxyAccount_step hst ⟨fun he => hov (by rw [he]), hdrop, hwf'⟩ hne]
    refine ⟨handler_step hs.opened hst, by rw [htot]; exact hs.total, fun hlt => ?_⟩
    cases hl : left s.session with
    | true => rw [(left_step hl hst).2]; exact hs.gone hl
    | false =>
      have hlv := left_enter hl hst hlt
      have hp := pending_of_leaving hs.opened hc hd hlv hst
      rw [(leaves_step hlv hst).2, ← hs.total, proxyTotal, writing_of_leaves hlv hwf' hst, hp,
        List.nil_append, List.append_nil]

/-- A drop at `done` takes the chunk `readLoop` held, and touches nothing else. -/
theorem dropData_some (h : step s .dropData = some t) :
    loopChunk s ≠ [] ∧ t = { s with loop := .idle } := by
  cases step_move h with
  | dropData hl hc => simp [loopChunk, hl, hc]

/-- The first step that is not drained loses a chunk for good. -/
theorem hope_lost {ps : List Payload} {s t : ProxyRun} {e : ProxyEvent} (hs : Kept ps s)
    (hd : ¬ProxyDrained s e) (h : proxyStep s e = some t) : proxyHope t < ps.length := by
  have hstay : proxyPending s ≠ [] → left s.session = false := by
    intro hp
    cases hl : left s.session with
    | false => rfl
    | true =>
      have htot := hs.total
      rw [proxyTotal, writing_of_left hl, hs.gone hl, List.nil_append] at htot
      exact absurd (List.append_right_eq_self.mp htot) hp
  cases e with
  | read =>
    obtain ⟨hr, hne⟩ := Classical.not_imp.mp hd
    obtain ⟨hl, -, -, ⟨hr', -⟩ | ⟨-, hf, ht⟩⟩ := proxyTotal_read h
    · rw [hr] at hr'
      cases hr'
    · have hlen := congrArg List.length hf
      have hpos := List.length_pos_iff.mpr hne
      have hpend : proxyPending s ≠ [] := by
        intro hp
        simp only [proxyPending, List.append_eq_nil_iff] at hp
        rw [hp.2, List.append_eq_nil_iff] at hf
        exact hne hf.1
      have htot := proxyTotal_eq s
      rw [proxyHope, hl, hstay hpend, proxyTotal_eq, ht, ← hs.total, htot]
      simp only [List.length_append, Bool.false_eq_true, ↓reduceIte] at hlen ⊢
      omega
  | session e =>
    obtain ⟨hst, hf, -⟩ := proxyStep_session h
    have hleave : leaves e = true → proxyPending s ≠ [] → proxyHope t < ps.length := by
      intro he hp
      obtain ⟨hlt, hw⟩ := leaves_step he hst
      have hpos := List.length_pos_iff.mpr hp
      have htot := congrArg List.length hs.total
      simp only [proxyTotal, List.length_append] at htot
      simp only [proxyHope, hlt, hw, ↓reduceIte]
      omega
    cases e
    case connectFailed | connectClosed | selectDone | selectClientDone => exact hleave rfl hd
    case dropData =>
      obtain ⟨hc, ht⟩ := dropData_some hst
      have hpos := List.length_pos_iff.mpr hc
      have hpend : proxyPending s ≠ [] := by
        intro hp
        simp only [proxyPending, List.append_eq_nil_iff] at hp
        exact hc hp.1.2
      have hl : left t.session = false := by
        rw [ht]
        exact hstay hpend
      rw [proxyHope, hl, ← hs.total, proxyTotal_eq, proxyTotal_eq, hf, ht]
      simp only [proxyAccount, writing, loopChunk, List.length_append] at hpos ⊢
      simp only [Bool.false_eq_true, ↓reduceIte, List.length_nil]
      omega
    all_goals exact absurd trivial hd

/-- The proxy end delivers everything exactly when every step is drained. -/
theorem delivered_iff_drained {ps : List Payload} {es : List ProxyEvent} {t : ProxyRun}
    (hr : run proxyStep (proxyStart ps) es = some t) (hc : ∀ e ∈ es, Served e)
    (hret : t.session.handler = .returned) :
    t.session.written = ps ↔ Meets proxyStep ProxyDrained (proxyStart ps) es := by
  have hl : left t.session = true := by simp [left, hret]
  have hserved : Meets proxyStep (fun _ e => Served e) (proxyStart ps) es :=
    meets_of_mem fun e he _ => hc e he
  constructor
  · intro hw
    have hm : ps.length ≤ proxyHope t := by
      simp only [proxyHope, hl, hw, ↓reduceIte, le_refl]
    refine @meets_of_measure _ _ _ _ (fun _ => True) (Kept ps) (fun _ e => Served e) proxyHope _
      ?_ ?_ ?_ ?_ _ _ _ trivial (kept_start ps) hserved hr hm
    · exact fun _ _ _ _ _ => trivial
    · exact fun _ _ _ _ h => proxyHope_step h
    · exact fun _ _ _ _ hs hc hd h => kept_step hs hc hd h
    · exact fun _ _ _ _ hs _ hd h => hope_lost hs hd h
  · intro hm
    have hkept : Kept ps t := by
      refine run_invariant ?_ (kept_start ps) (meets_and hserved hm) hr
      exact fun s e t hs hcd h => kept_step hs hcd.1 hcd.2 h
    exact hkept.gone hl

end SplitProxy.ProxyTail
