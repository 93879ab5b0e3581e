import SplitProxy.SessionTable

/-!
# Who stores in the session table

Only `openProxySession` stores, and between its duplicate check and its store a
worker is selected. One open session is never replaced as long as no two calls
for the same id are under way together.
-/
namespace SplitProxy.SessionTable

open Runs SyncMap

variable {P W Id : Type} [DecidableEq P] [DecidableEq W] [DecidableEq Id]

/-! ## What a step does to the table -/

/-- The id of an `openProxySession` call that has passed its duplicate check and not stored. -/
def HandlerPc.unstored : HandlerPc P W Id → Option Id
  | .checked req => some req.id
  | .selected req _ => some req.id
  | _ => none

/-- The id of an `openProxySession` call that has passed its duplicate check, is not
done and has not failed. -/
def HandlerPc.attempt : HandlerPc P W Id → Option Id
  | .checked req => some req.id
  | .selected req _ => some req.id
  | .connecting id _ _ => some id
  | _ => none

/-- The session a handler is working on. -/
def HandlerPc.holds : HandlerPc P W Id → Option (Id × Session P W)
  | .connecting id x _ => some (id, x)
  | .connectFailed id x _ => some (id, x)
  | .reporting id x _ => x.map fun x => (id, x)
  | .sending id x _ _ => some (id, x)
  | .sendFailed id x _ => some (id, x)
  | .refusing id x => some (id, x)
  | .sendingClose id x => some (id, x)
  | .closing id x => some (id, x)
  | _ => none

def ReaderPc.holds : ReaderPc P W Id → Option (Id × Session P W)
  | .forwarding id x _ _ => some (id, x)
  | .writeFailed id x => some (id, x)
  | .forwardingClose id x _ => some (id, x)
  | .closing id x => some (id, x)
  | _ => none

variable {s t : State P W Id} {p q : P} {w : W} {id : Id} {x : Session P W}

/-- A step of a handler by what it does to its own place and to the table. -/
inductive HandlerEffect (s : State P W Id) (p : P) :
    HandlerEvent W Id → HandlerPc P W Id → Entries Id (Session P W) → Prop where
  | passed (req) (h : load s.sessions req.id = none) :
    HandlerEffect s p (.openRequest req) (.checked req) s.sessions
  | chosen (req w) (h : s.handler p = .checked req) :
    HandlerEffect s p (.getWorker (some w)) (.selected req w) s.sessions
  | stored (req w) (h : s.handler p = .selected req w) :
    HandlerEffect s p .store (.connecting req.id ⟨p, w, req.mode, s.serial⟩ req.target)
      (SyncMap.store s.sessions req.id ⟨p, w, req.mode, s.serial⟩)
  | moved (e pc) (hpc : pc.attempt = none)
      (hh : ∀ id x, pc.holds = some (id, x) → (s.handler p).holds = some (id, x) ∨
        load s.sessions id = some x ∧ x.proxy = p) :
    HandlerEffect s p e pc s.sessions
  | deleted (e pc id x) (hpc : pc.attempt = none) (h : (s.handler p).holds = some (id, x))
      (hh : ∀ i y, pc.holds = some (i, y) → (s.handler p).holds = some (i, y)) :
    HandlerEffect s p e pc (SyncMap.delete s.sessions id)

omit [DecidableEq P] [DecidableEq W] in
/-- A handler that stays where it is. -/
theorem HandlerEffect.stayed {e : HandlerEvent W Id} (h : s.handler p = .reading) :
    HandlerEffect s p e (s.handler p) s.sessions := by
  refine .moved e _ ?_ ?_
  · rw [h]
    rfl
  · intro id x hx
    rw [h] at hx
    cases hx

theorem handler_effect {e : HandlerEvent W Id} (h : handlerStep s p e = some t) :
    t.reader = s.reader ∧
      ∃ pc, t.handler = Function.update s.handler p pc ∧ HandlerEffect s p e pc t.sessions := by
  have hstay : s.handler = Function.update s.handler p (s.handler p) :=
    (Function.update_eq_self p s.handler).symm
  cases handlerStep_move h with
  | known hp | ignored hp => exact ⟨rfl, _, hstay, .stayed hp⟩
  | checked _ hl => exact ⟨rfl, _, rfl, .passed _ hl⟩
  | selected hp => exact ⟨rfl, _, rfl, .chosen _ _ hp⟩
  | noWorkers | readFailed =>
    exact ⟨rfl, _, rfl, .moved _ _ rfl (fun _ _ hh => by cases hh)⟩
  | store hp => exact ⟨rfl, _, rfl, .stored _ _ hp⟩
  | connectSent _ hu =>
    rw [(sendWorker_some hu).1]
    exact ⟨rfl, _, rfl, .moved _ _ rfl (fun _ _ hh => by cases hh)⟩
  | dataSent hp hu | closeSent hp hu =>
    rw [(sendWorker_some hu).1]
    refine ⟨rfl, _, rfl, .moved _ _ rfl (fun _ _ hh => ?_)⟩
    rw [hp]
    first | exact Or.inl hh | cases hh
  | connectAborted hp | dataAborted hp | closeAborted hp =>
    refine ⟨rfl, _, rfl, .moved _ _ rfl (fun _ _ hh => Or.inl ?_)⟩
    rw [hp]
    exact hh
  | connectDelete hp | dataDelete hp | closeDelete hp =>
    refine ⟨rfl, _, rfl, .deleted _ _ _ _ rfl (by rw [hp]; rfl) (fun _ _ hh => ?_)⟩
    rw [hp]
    first | exact hh | cases hh
  | reported _ hu | refused _ hu =>
    rw [(writeProxy_some hu).1]
    exact ⟨rfl, _, rfl, .moved _ _ rfl (fun _ _ hh => by cases hh)⟩
  | data _ hl hx | close _ hl hx =>
    refine ⟨rfl, _, rfl, .moved _ _ rfl (fun _ _ hh => Or.inr ?_)⟩
    cases hh
    exact ⟨hl, hx⟩

/-- Everyone but the handlers leaves their places alone and at most deletes. -/
def OnlyDeletes (s t : State P W Id) : Prop :=
  t.handler = s.handler ∧
    (t.sessions = s.sessions ∨ ∃ id, t.sessions = SyncMap.delete s.sessions id)

/-- A step of neither a handler nor a reader. -/
def Background (s t : State P W Id) : Prop :=
  OnlyDeletes s t ∧ t.reader = s.reader

theorem background_close {e : CloseEvent P W Id} (h : closeStep s p e = some t) :
    Background s t := by
  cases closeStep_move h with
  | delete => exact ⟨⟨rfl, Or.inr ⟨_, rfl⟩⟩, rfl⟩
  | _ => exact ⟨⟨rfl, Or.inl rfl⟩, rfl⟩

theorem background_removal {e : RemoveEvent P W Id} (h : removeStep s w e = some t) :
    Background s t := by
  cases removeStep_move h with
  | notified _ hu =>
    rw [(writeProxy_some hu).1]
    exact ⟨⟨rfl, Or.inl rfl⟩, rfl⟩
  | delete => exact ⟨⟨rfl, Or.inr ⟨_, rfl⟩⟩, rfl⟩
  | _ => exact ⟨⟨rfl, Or.inl rfl⟩, rfl⟩

/-- A step of a worker's reader by what it does to its own place and to the table. -/
inductive ReaderEffect (s : State P W Id) (w : W) :
    ReaderPc P W Id → Entries Id (Session P W) → Prop where
  | moved (pc)
      (hh : ∀ id x, pc.holds = some (id, x) → (s.reader w).holds = some (id, x) ∨
        load s.sessions id = some x ∧ x.worker = w) :
    ReaderEffect s w pc s.sessions
  | deleted (pc id x) (h : (s.reader w).holds = some (id, x)) (hh : pc.holds = none) :
    ReaderEffect s w pc (SyncMap.delete s.sessions id)

theorem reader_effect {e : ReaderEvent Id} (h : readerStep s w e = some t) :
    t.handler = s.handler ∧ ∃ pc, t.reader = Function.update s.reader w pc ∧
      ReaderEffect s w pc t.sessions := by
  have hstay : s.reader = Function.update s.reader w (s.reader w) :=
    (Function.update_eq_self w s.reader).symm
  have hkeep : ReaderEffect s w (s.reader w) s.sessions := .moved _ (fun _ _ => Or.inl)
  cases readerStep_move h with
  | ignored => exact ⟨rfl, _, hstay, hkeep⟩
  | frame _ hl hx | close _ hl hx =>
    refine ⟨rfl, _, rfl, .moved _ (fun _ _ hh => Or.inr ?_)⟩
    cases hh
    exact ⟨hl, hx⟩
  | @forwarded _ _ _ _ ok _ hw hu =>
    rw [(writeProxy_some hu).1]
    refine ⟨rfl, _, rfl, .moved _ (fun _ _ hh => Or.inl ?_)⟩
    rw [hw]
    cases ok with
    | true => cases hh
    | false => exact hh
  | closeForwarded hw hu =>
    rw [(writeProxy_some hu).1]
    refine ⟨rfl, _, rfl, .moved _ (fun _ _ hh => Or.inl ?_)⟩
    rw [hw]
    exact hh
  | failDelete hw | closeDelete hw => exact ⟨rfl, _, rfl, .deleted _ _ _ (by rw [hw]; rfl) rfl⟩
  | readFailed => exact ⟨rfl, _, rfl, .moved _ (fun _ _ hh => by cases hh)⟩

theorem onlyDeletes_reader {e : ReaderEvent Id} (h : readerStep s w e = some t) :
    OnlyDeletes s t := by
  obtain ⟨hhandler, pc, -, he⟩ := reader_effect h
  generalize ht : t.sessions = m at he
  cases he with
  | moved hh => exact ⟨hhandler, Or.inl ht⟩
  | deleted id x hw hh => exact ⟨hhandler, Or.inr ⟨id, ht⟩⟩

theorem step_effect {e : Event P W Id} (h : step s e = some t) :
    (∃ p f, e = .handler p f ∧ handlerStep s p f = some t) ∨
      (∃ w f, e = .reader w f ∧ readerStep s w f = some t) ∨ Background s t := by
  cases e with
  | handler p f => exact Or.inl ⟨p, f, rfl, h⟩
  | close p f => exact Or.inr (Or.inr (background_close h))
  | removal w f => exact Or.inr (Or.inr (background_removal h))
  | reader w f => exact Or.inr (Or.inl ⟨w, f, rfl, h⟩)
  | senderSent id x =>
    simp only [step] at h
    split at h
    · obtain ⟨u, hu, rfl⟩ := Option.map_eq_some_iff.mp h
      rw [(sendWorker_some hu).1]
      exact Or.inr (Or.inr ⟨⟨rfl, Or.inl rfl⟩, rfl⟩)
    · cases h
  | senderAborted id x err =>
    simp only [step] at h
    split at h <;> cases h
    exact Or.inr (Or.inr ⟨⟨rfl, Or.inl rfl⟩, rfl⟩)
  | workerWriter w =>
    simp only [step] at h
    obtain ⟨r, hr, rfl⟩ := Option.map_eq_some_iff.mp h
    exact Or.inr (Or.inr ⟨⟨rfl, Or.inl rfl⟩, rfl⟩)
  | proxyWriter p =>
    simp only [step] at h
    obtain ⟨r, hr, rfl⟩ := Option.map_eq_some_iff.mp h
    exact Or.inr (Or.inr ⟨⟨rfl, Or.inl rfl⟩, rfl⟩)

/-- Only a handler does more than delete. -/
theorem handler_or_onlyDeletes {e : Event P W Id} (h : step s e = some t) :
    (∃ p f pc, e = .handler p f ∧ t.handler = Function.update s.handler p pc ∧
      HandlerEffect s p f pc t.sessions) ∨ OnlyDeletes s t := by
  rcases step_effect h with ⟨p, f, rfl, hp⟩ | ⟨w, f, rfl, hw⟩ | hb
  · obtain ⟨-, pc, ht, he⟩ := handler_effect hp
    exact Or.inl ⟨p, f, pc, rfl, ht, he⟩
  · exact Or.inr (onlyDeletes_reader hw)
  · exact Or.inr hb.1

/-! ## One call for an id at a time -/

/-- A call passes the duplicate check while no other call for the id is under way. -/
def ChecksAlone (s : State P W Id) : Event P W Id → Prop
  | .handler _ (.openRequest req) =>
    load s.sessions req.id = none → ∀ q, (s.handler q).attempt ≠ some req.id
  | _ => True

/-- A store finds its id unmapped, a mapped session stays as it is until it is deleted,
and when a call succeeds every other call for the id in progress has failed. -/
structure NeverReplaced (s : State P W Id) (e : Event P W Id) : Prop where
  unmapped : ∀ p req w, e = .handler p .store → s.handler p = .selected req w →
    load s.sessions req.id = none
  kept : ∀ t, step s e = some t → ∀ id x y, load s.sessions id = some x →
    load t.sessions id = some y → y = x
  single : ∀ p id x target, e = .handler p .connectSent → s.handler p = .connecting id x target →
    ∀ q, q ≠ p → (s.handler q).attempt ≠ some id

structure Exclusive (s : State P W Id) : Prop where
  attempts : ∀ p q id, (s.handler p).attempt = some id → (s.handler q).attempt = some id → p = q
  unmapped : ∀ p id, (s.handler p).unstored = some id → load s.sessions id = none

omit [DecidableEq P] [DecidableEq W] in
theorem exclusive_initial : Exclusive (initial P W Id) := by
  refine ⟨fun p q id hp => ?_, fun p id hp => ?_⟩
  · cases hp
  · cases hp

omit [DecidableEq P] [DecidableEq W] [DecidableEq Id] in
theorem attempt_of_unstored {pc : HandlerPc P W Id} (h : pc.unstored = some id) :
    pc.attempt = some id := by
  cases pc <;> first | exact h | cases h

omit [DecidableEq P] [DecidableEq W] in
theorem Exclusive.onlyDeletes (hs : Exclusive s) (h : OnlyDeletes s t) : Exclusive t := by
  obtain ⟨hhandler, htable⟩ := h
  refine ⟨fun p q id hp hq => ?_, fun p id hp => ?_⟩
  · rw [hhandler] at hp hq
    exact hs.attempts p q id hp hq
  · rw [hhandler] at hp
    have hn := hs.unmapped p id hp
    rcases htable with ht | ⟨i, ht⟩
    · rw [ht]
      exact hn
    · rw [ht, load_delete, hn]
      exact ite_self none

omit [DecidableEq W] in
/-- The handler of `p` moves; what it attempts is new or was its own before. -/
theorem Exclusive.handler {pc : HandlerPc P W Id} (hs : Exclusive s)
    (ht : t.handler = Function.update s.handler p pc)
    (hpc : ∀ id, pc.attempt = some id → ∀ q, q ≠ p → (s.handler q).attempt ≠ some id)
    (hn : ∀ id, pc.unstored = some id → load t.sessions id = none)
    (hold : ∀ q id, q ≠ p → (s.handler q).unstored = some id → load t.sessions id = none) :
    Exclusive t := by
  have hself : t.handler p = pc := by rw [ht, Function.update_self]
  have hother : ∀ q, q ≠ p → t.handler q = s.handler q := by
    intro q hq
    rw [ht, Function.update_of_ne hq]
  refine ⟨fun a b id ha hb => ?_, fun q id hq => ?_⟩
  · by_cases hap : a = p
    · by_cases hbp : b = p
      · rw [hap, hbp]
      · rw [hap, hself] at ha
        rw [hother b hbp] at hb
        exact absurd hb (hpc id ha b hbp)
    · rw [hother a hap] at ha
      by_cases hbp : b = p
      · rw [hbp, hself] at hb
        exact absurd ha (hpc id hb a hap)
      · rw [hother b hbp] at hb
        exact hs.attempts a b id ha hb
  · by_cases hqp : q = p
    · rw [hqp, hself] at hq
      exact hn id hq
    · rw [hother q hqp] at hq
      exact hold q id hqp hq

theorem exclusive_step {e : Event P W Id} (hs : Exclusive s) (hc : ChecksAlone s e)
    (h : step s e = some t) : Exclusive t := by
  rcases handler_or_onlyDeletes h with ⟨p, f, pc, rfl, ht, he⟩ | hd
  · have hothers : ∀ id, (s.handler p).attempt = some id →
        ∀ q, q ≠ p → (s.handler q).attempt ≠ some id :=
      fun id hp q hq hqa => hq (hs.attempts q p id hqa hp)
    generalize hm : t.sessions = m at he
    cases he with
    | passed req hn =>
      refine hs.handler ht (fun id hid q _ => ?_) (fun id hid => ?_) (fun q id _ hq => ?_)
      · cases hid
        exact hc hn q
      · cases hid
        rw [hm]
        exact hn
      · rw [hm]
        exact hs.unmapped q id hq
    | chosen req w hp =>
      refine hs.handler ht (fun id hid => ?_) (fun id hid => ?_) (fun q id _ hq => ?_)
      · exact hothers id (by rw [hp]; exact hid)
      · rw [hm]
        exact hs.unmapped p id (by rw [hp]; exact hid)
      · rw [hm]
        exact hs.unmapped q id hq
    | stored req w hp =>
      have hreq : (s.handler p).attempt = some req.id := by rw [hp]; rfl
      refine hs.handler ht (fun id hid => ?_) (fun id hid => by cases hid) (fun q id hqp hq => ?_)
      · cases hid
        exact hothers _ hreq
      · have hne : id ≠ req.id := by
          rintro rfl
          exact hothers _ hreq q hqp (attempt_of_unstored hq)
        rw [hm, load_store_other _ _ hne]
        exact hs.unmapped q id hq
    | moved f pc hpc hh =>
      refine hs.handler ht (fun id hid => ?_) (fun id hid => ?_) (fun q id _ hq => ?_)
      · rw [hpc] at hid
        cases hid
      · rw [attempt_of_unstored hid] at hpc
        cases hpc
      · rw [hm]
        exact hs.unmapped q id hq
    | deleted f pc i x hpc hx hh =>
      refine hs.handler ht (fun id hid => ?_) (fun id hid => ?_) (fun q id _ hq => ?_)
      · rw [hpc] at hid
        cases hid
      · rw [attempt_of_unstored hid] at hpc
        cases hpc
      · rw [hm, load_delete, hs.unmapped q id hq]
        exact ite_self none
  · exact hs.onlyDeletes hd

theorem Exclusive.neverReplaced {e : Event P W Id} (hs : Exclusive s) : NeverReplaced s e := by
  refine ⟨fun p req w _ hp => ?_, fun t h id x y hx hy => ?_, fun p id x target _ hp q hq ha => ?_⟩
  · exact hs.unmapped p req.id (by rw [hp]; rfl)
  · have hsame : ∀ i, load (SyncMap.delete s.sessions i) id = some y → y = x := by
      intro i hd
      have hl := (load_of_delete hd).2
      rw [hx] at hl
      exact (Option.some.inj hl).symm
    rcases handler_or_onlyDeletes h with ⟨p, f, pc, rfl, -, he⟩ | ⟨-, ht | ⟨i, ht⟩⟩
    · generalize hm : t.sessions = m at he hy
      cases he with
      | stored req w hp =>
        have hn := hs.unmapped p req.id (by rw [hp]; rfl)
        rcases load_of_store hy with ⟨rfl, -⟩ | ⟨-, hl⟩
        · rw [hn] at hx
          cases hx
        · rw [hx] at hl
          exact (Option.some.inj hl).symm
      | deleted f pc i z hpc hz hh => exact hsame i hy
      | passed | chosen | moved =>
        rw [hx] at hy
        exact (Option.some.inj hy).symm
    · rw [ht, hx] at hy
      exact (Option.some.inj hy).symm
    · rw [ht] at hy
      exact hsame i hy
  · exact hq (hs.attempts q p id ha (by rw [hp]; rfl))

/-- In a run whose calls all pass their check alone, no open session is replaced. -/
theorem never_replaced_of_alone (es : List (Event P W Id))
    (hc : Meets step ChecksAlone (initial P W Id) es) :
    Meets step NeverReplaced (initial P W Id) es := by
  refine meets_of_invariant (I := Exclusive) ?_ ?_ exclusive_initial hc
  · intro s e t hs hc h
    exact exclusive_step hs hc h
  · intro s e hs _
    exact hs.neverReplaced

def request (id : Nat) : BrokerRequest Nat := ⟨id, .tcp, [], []⟩

/-- Two proxies open a session each, the second one after a refused duplicate. -/
def refusedRun : List (Event Nat Nat Nat) :=
  [.handler 0 (.openRequest (request 7)), .handler 0 (.getWorker (some 0)), .handler 0 .store,
    .handler 1 (.openRequest (request 7)), .handler 0 .connectSent,
    .handler 1 (.openRequest (request 8)), .handler 1 (.getWorker (some 0)), .handler 1 .store,
    .handler 1 .connectSent]

theorem never_replaced_refused : Meets step ChecksAlone (initial Nat Nat Nat) refusedRun ∧
    Meets step NeverReplaced (initial Nat Nat Nat) refusedRun := by
  have hc : Meets step ChecksAlone (initial Nat Nat Nat) refusedRun := by
    simp [refusedRun, request, Meets, ChecksAlone, step, handlerStep, initial, setHandler, store,
      SyncMap.store, load, SyncMap.delete, sendWorker, workerQueueSize, HandlerPc.attempt]
  exact ⟨hc, never_replaced_of_alone refusedRun hc⟩

/-- Both proxies pass the duplicate check before either of them stores. -/
def replacingRun : List (Event Nat Nat Nat) :=
  [.handler 0 (.openRequest (request 7)), .handler 1 (.openRequest (request 7)),
    .handler 0 (.getWorker (some 0)), .handler 1 (.getWorker (some 1)), .handler 0 .store,
    .handler 1 .store, .handler 0 .connectSent, .handler 1 .connectSent]

theorem session_replaced :
    ¬Meets step NeverReplaced (initial Nat Nat Nat) replacingRun ∧
      (∃ s, run step (initial Nat Nat Nat) (replacingRun.take 5) = some s ∧
        load s.sessions 7 = some ⟨0, 0, .tcp, 0⟩) ∧
      ∃ t, run step (initial Nat Nat Nat) replacingRun = some t ∧
        load t.sessions 7 = some ⟨1, 1, .tcp, 1⟩ := by
  refine ⟨fun h => ?_, ⟨_, rfl, rfl⟩, ⟨_, rfl, rfl⟩⟩
  obtain ⟨s, hs, hl⟩ : ∃ s, run step (initial Nat Nat Nat) (replacingRun.take 5) = some s ∧
      s.handler 1 = .selected (request 7) 1 ∧ load s.sessions 7 = some ⟨0, 0, .tcp, 0⟩ :=
    ⟨_, rfl, rfl, rfl⟩
  have hm := @meets_append_right _ _ step NeverReplaced _ s (replacingRun.take 5)
    (replacingRun.drop 5) h hs
  have hn := hm.1.unmapped 1 (request 7) 1 rfl hl.1
  have hl2 : load s.sessions (request 7).id = some ⟨0, 0, .tcp, 0⟩ := hl.2
  rw [hn] at hl2
  cases hl2

end SplitProxy.SessionTable
