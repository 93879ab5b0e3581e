import Mathlib.Logic.Function.Basic
import SplitProxy.Runs

/-!
# The proxy's one link to the broker

`getBrokerConnection` with any number of callers, the two goroutines
`dialBroker` leaves behind for each connection it makes, and
`BrokerConnection.close`. The sections under `brokerStateMu` and the channel
operations are the steps; the websocket may fail at any moment.
-/
namespace SplitProxy.BrokerLink

open Runs

abbrev CallerId := Nat
abbrev ConnId := Nat
abbrev WaitId := Nat

/-- Where a `getBrokerConnection` call stands. -/
inductive CallerPc where
  | idle
  | retry
  | waiting (ch : WaitId)
  | dialing (ch : WaitId)
  | dialed (ch : WaitId) (result : Option ConnId)
  | returned (result : Option ConnId)
  deriving DecidableEq, Repr

/-- How far the one execution of `BrokerConnection.close` has come. -/
inductive CloseStage where
  | notCalled
  | doneClosed
  | wsClosed
  | sessionsClosed
  | completed
  deriving DecidableEq, Repr

/-- `writeLoop` and `readLoop`. -/
inductive Goroutine where
  | writer
  | reader
  deriving DecidableEq, Repr

inductive LoopPc where
  | running
  | closing
  | returned
  deriving DecidableEq, Repr

structure Conn where
  stage : CloseStage
  loop : Goroutine → LoopPc

/-- A connection as `dialBroker` returns it, both goroutines already running. -/
def dialedConn : Conn := ⟨.notCalled, fun _ => .running⟩

structure State where
  brokerConn : Option ConnId
  brokerDialing : Bool
  brokerWaitCh : WaitId
  /-- wait channels that are closed -/
  woken : WaitId → Bool
  /-- number of connections dialed so far -/
  dialed : Nat
  conns : ConnId → Conn
  callers : CallerId → CallerPc

def initial : State where
  brokerConn := none
  brokerDialing := false
  brokerWaitCh := 0
  woken := fun _ => false
  dialed := 0
  conns := fun _ => dialedConn
  callers := fun _ => .idle

inductive Event where
  | enter (i : CallerId)
  | wake (i : CallerId)
  | dialFailed (i : CallerId)
  | dialOk (i : CallerId)
  | publish (i : CallerId)
  | closeCall (g : Goroutine) (c : ConnId)
  | writerDone (c : ConnId)
  | closeWs (c : ConnId)
  | closeSessions (c : ConnId)
  | clearConn (c : ConnId)
  | closeReturn (g : Goroutine) (c : ConnId)
  deriving DecidableEq, Repr

def setCaller (s : State) (i : CallerId) (pc : CallerPc) : State :=
  { s with callers := Function.update s.callers i pc }

def setConn (s : State) (c : ConnId) (k : Conn) : State :=
  { s with conns := Function.update s.conns c k }

/-- The first section of the loop in `getBrokerConnection`. -/
def enter (s : State) (i : CallerId) : State :=
  match s.brokerConn with
  | some c => setCaller s i (.returned (some c))
  | none =>
    if s.brokerDialing then setCaller s i (.waiting s.brokerWaitCh)
    else { setCaller s i (.dialing (s.brokerWaitCh + 1)) with
      brokerDialing := true
      brokerWaitCh := s.brokerWaitCh + 1 }

/-- The second section, after `dialBroker` has returned. -/
def publish (s : State) (i : CallerId) (ch : WaitId) (result : Option ConnId) : State :=
  { setCaller s i (.returned result) with
    brokerConn := result.or s.brokerConn
    brokerDialing := false
    woken := Function.update s.woken ch true }

def step (s : State) : Event → Option State
  | .enter i =>
    match s.callers i with
    | .idle | .retry | .returned _ => some (enter s i)
    | _ => none
  | .wake i =>
    match s.callers i with
    | .waiting ch => if s.woken ch then some (setCaller s i .retry) else none
    | _ => none
  | .dialFailed i =>
    match s.callers i with
    | .dialing ch => some (setCaller s i (.dialed ch none))
    | _ => none
  | .dialOk i =>
    match s.callers i with
    | .dialing ch =>
      some { setConn (setCaller s i (.dialed ch (some s.dialed))) s.dialed dialedConn with
        dialed := s.dialed + 1 }
    | _ => none
  | .publish i =>
    match s.callers i with
    | .dialed ch result => some (publish s i ch result)
    | _ => none
  | .closeCall g c =>
    let k := s.conns c
    if c < s.dialed ∧ k.loop g = .running then
      some (setConn s c
        { stage := if k.stage = .notCalled then .doneClosed else k.stage
          loop := Function.update k.loop g .closing })
    else none
  | .writerDone c =>
    let k := s.conns c
    if c < s.dialed ∧ k.loop .writer = .running ∧ k.stage ≠ .notCalled then
      some (setConn s c { k with loop := Function.update k.loop .writer .returned })
    else none
  | .closeWs c =>
    if c < s.dialed ∧ (s.conns c).stage = .doneClosed then
      some (setConn s c { s.conns c with stage := .wsClosed }) else none
  | .closeSessions c =>
    if c < s.dialed ∧ (s.conns c).stage = .wsClosed then
      some (setConn s c { s.conns c with stage := .sessionsClosed }) else none
  | .clearConn c =>
    if c < s.dialed ∧ (s.conns c).stage = .sessionsClosed then
      some { setConn s c { s.conns c with stage := .completed } with
        brokerConn := if s.brokerConn = some c then none else s.brokerConn }
    else none
  | .closeReturn g c =>
    let k := s.conns c
    if c < s.dialed ∧ k.loop g = .closing ∧ k.stage = .completed then
      some (setConn s c { k with loop := Function.update k.loop g .returned })
    else none

/-- `close` has run to completion on `c`. -/
def dead (s : State) (c : ConnId) : Prop := (s.conns c).stage = .completed

/-- The published connection, if any, is not a dead one. -/
def Live (s : State) : Prop := ∀ c, s.brokerConn = some c → ¬dead s c

/-- A caller publishes the connection it dialed only while `close` has not run
to completion on it. -/
def PublishedOpen (s : State) : Event → Prop
  | .publish i => ∀ ch c, s.callers i = .dialed ch (some c) → ¬dead s c
  | _ => True

variable {s t : State} {e : Event}

@[simp] theorem enter_brokerConn (s : State) (i : CallerId) :
    (enter s i).brokerConn = s.brokerConn := by
  unfold enter
  split
  · rfl
  · split <;> rfl

@[simp] theorem enter_conns (s : State) (i : CallerId) : (enter s i).conns = s.conns := by
  unfold enter
  split
  · rfl
  · split <;> rfl

@[simp] theorem enter_dialed (s : State) (i : CallerId) : (enter s i).dialed = s.dialed := by
  unfold enter
  split
  · rfl
  · split <;> rfl

/-! ## What a step does -/

inductive Move (s : State) : Event → State → Prop where
  | enter {i : CallerId} (hi : s.callers i = .idle ∨ s.callers i = .retry ∨
      ∃ result, s.callers i = .returned result) : Move s (.enter i) (enter s i)
  | wake {i : CallerId} {ch : WaitId} (hi : s.callers i = .waiting ch) (hw : s.woken ch = true) :
      Move s (.wake i) (setCaller s i .retry)
  | dialFailed {i : CallerId} {ch : WaitId} (hi : s.callers i = .dialing ch) :
      Move s (.dialFailed i) (setCaller s i (.dialed ch none))
  | dialOk {i : CallerId} {ch : WaitId} (hi : s.callers i = .dialing ch) :
      Move s (.dialOk i)
        { setConn (setCaller s i (.dialed ch (some s.dialed))) s.dialed dialedConn with
          dialed := s.dialed + 1 }
  | publish {i : CallerId} {ch : WaitId} {result : Option ConnId}
      (hi : s.callers i = .dialed ch result) : Move s (.publish i) (publish s i ch result)
  | closeCall {g : Goroutine} {c : ConnId} (hc : c < s.dialed)
      (hg : (s.conns c).loop g = .running) :
      Move s (.closeCall g c)
        (setConn s c
          { stage := if (s.conns c).stage = .notCalled then .doneClosed else (s.conns c).stage
            loop := Function.update (s.conns c).loop g .closing })
  | writerDone {c : ConnId} (hc : c < s.dialed) (hw : (s.conns c).loop .writer = .running)
      (hstage : (s.conns c).stage ≠ .notCalled) :
      Move s (.writerDone c)
        (setConn s c
          { s.conns c with loop := Function.update (s.conns c).loop .writer .returned })
  | closeWs {c : ConnId} (hc : c < s.dialed) (hstage : (s.conns c).stage = .doneClosed) :
      Move s (.closeWs c) (setConn s c { s.conns c with stage := .wsClosed })
  | closeSessions {c : ConnId} (hc : c < s.dialed) (hstage : (s.conns c).stage = .wsClosed) :
      Move s (.closeSessions c) (setConn s c { s.conns c with stage := .sessionsClosed })
  | clearConn {c : ConnId} (hc : c < s.dialed) (hstage : (s.conns c).stage = .sessionsClosed) :
      Move s (.clearConn c)
        { setConn s c { s.conns c with stage := .completed } with
          brokerConn := if s.brokerConn = some c then none else s.brokerConn }
  | closeReturn {g : Goroutine} {c : ConnId} (hc : c < s.dialed)
      (hg : (s.conns c).loop g = .closing) (hstage : (s.conns c).stage = .completed) :
      Move s (.closeReturn g c)
        (setConn s c { s.conns c with loop := Function.update (s.conns c).loop g .returned })

theorem step_move (h : step s e = some t) : Move s e t := by
  cases e with
  | enter i =>
    simp only [step] at h
    split at h <;> cases h
    · exact .enter (.inl ‹_›)
    · exact .enter (.inr (.inl ‹_›))
    · exact .enter (.inr (.inr ⟨_, ‹_›⟩))
  | wake i =>
    simp only [step] at h
    split at h
    · split at h <;> cases h
      exact .wake ‹_› ‹_›
    · cases h
  | dialFailed i =>
    simp only [step] at h
    split at h <;> cases h
    exact .dialFailed ‹_›
  | dialOk i =>
    simp only [step] at h
    split at h <;> cases h
    exact .dialOk ‹_›
  | publish i =>
    simp only [step] at h
    split at h <;> cases h
    exact .publish ‹_›
  | closeCall g c =>
    simp only [step] at h
    split at h <;> rename_i hc <;> cases h
    exact .closeCall hc.1 hc.2
  | writerDone c =>
    simp only [step] at h
    split at h <;> rename_i hc <;> cases h
    exact .writerDone hc.1 hc.2.1 hc.2.2
  | closeWs c =>
    simp only [step] at h
    split at h <;> rename_i hc <;> cases h
    exact .closeWs hc.1 hc.2
  | closeSessions c =>
    simp only [step] at h
    split at h <;> rename_i hc <;> cases h
    exact .closeSessions hc.1 hc.2
  | clearConn c =>
    simp only [step] at h
    split at h <;> rename_i hc <;> cases h
    exact .clearConn hc.1 hc.2
  | closeReturn g c =>
    simp only [step] at h
    split at h <;> rename_i hc <;> cases h
    exact .closeReturn hc.1 hc.2.1 hc.2.2

/-! ## The published connection -/

/-- The two sections that write `brokerConn`, and what they write. -/
theorem brokerConn_step (h : step s e = some t) :
    t.brokerConn = s.brokerConn ∨
    (∃ i ch c, e = .publish i ∧ s.callers i = .dialed ch (some c) ∧ t.brokerConn = some c) ∨
    (∃ c, e = .clearConn c ∧ s.brokerConn = some c ∧ t.brokerConn = none) := by
  cases step_move h with
  | @publish i ch result hi =>
    cases result with
    | none => exact .inl rfl
    | some c => exact .inr (.inl ⟨i, ch, c, rfl, hi, rfl⟩)
  | @clearConn c =>
    by_cases hc : s.brokerConn = some c
    · exact .inr (.inr ⟨c, rfl, hc, by simp [hc]⟩)
    · exact .inl (by simp [hc])
  | enter => exact .inl (enter_brokerConn _ _)
  | _ => exact .inl rfl

theorem dead_setConn {c d : ConnId} {k : Conn} :
    dead (setConn s c k) d ↔ if d = c then k.stage = .completed else dead s d := by
  by_cases hd : d = c
  · subst hd
    simp [dead, setConn]
  · simp [dead, setConn, hd]

/-- Only the last section of `close` makes a dialed connection dead, and it stays dead. -/
theorem dead_step {c : ConnId} (hc : c < s.dialed) (h : step s e = some t) :
    dead t c ↔ dead s c ∨ e = .clearConn c := by
  cases step_move h with
  | enter => simp [dead]
  | dialOk =>
    change dead (setConn s s.dialed dialedConn) c ↔ _
    rw [dead_setConn, if_neg (Nat.ne_of_lt hc)]
    simp
  | publish => simp [dead, publish, setCaller]
  | wake | dialFailed => simp [dead, setCaller]
  | @clearConn d =>
    change dead (setConn s d _) c ↔ _
    rw [dead_setConn]
    by_cases hcd : c = d <;> simp [hcd, eq_comm]
  | @closeCall g d =>
    rw [dead_setConn]
    by_cases hcd : c = d
    · subst hcd
      by_cases hn : (s.conns c).stage = .notCalled <;> simp [dead, hn]
    · simp [hcd]
  | @writerDone d | @closeWs d | @closeSessions d | @closeReturn g d =>
    rw [dead_setConn]
    by_cases hcd : c = d
    · subst hcd
      simp_all [dead]
    · simp [hcd]

theorem dialed_step (h : step s e = some t) : s.dialed ≤ t.dialed := by
  cases step_move h with
  | enter => exact Nat.le_of_eq (enter_dialed _ _).symm
  | dialOk => exact Nat.le_succ _
  | _ => exact Nat.le_refl _

/-- A caller comes to hold a dialed connection only by dialing it, now. -/
theorem held_step {i : CallerId} {ch : WaitId} {c : ConnId} (h : step s e = some t)
    (ht : t.callers i = .dialed ch (some c)) :
    s.callers i = .dialed ch (some c) ∨ (c = s.dialed ∧ t.dialed = s.dialed + 1) := by
  have hupd : ∀ {j : CallerId} {pc : CallerPc}, (∀ ch c, pc ≠ .dialed ch (some c)) →
      Function.update s.callers j pc i = .dialed ch (some c) →
      s.callers i = .dialed ch (some c) := by
    intro j pc hpc hu
    by_cases hij : i = j
    · subst hij
      rw [Function.update_self] at hu
      exact absurd hu (hpc ch c)
    · rwa [Function.update_of_ne hij] at hu
  cases step_move h with
  | enter =>
    left
    unfold enter at ht
    split at ht
    · exact hupd (by simp) ht
    · split at ht
      · exact hupd (by simp) ht
      · exact hupd (by simp) ht
  | wake | dialFailed | publish => exact .inl (hupd (by simp) ht)
  | @dialOk j =>
    by_cases hij : i = j
    · subst hij
      simp only [setConn, setCaller, Function.update_self, CallerPc.dialed.injEq,
        Option.some.injEq] at ht
      exact .inr ⟨ht.2.symm, rfl⟩
    · simp only [setConn, setCaller, Function.update_of_ne hij] at ht
      exact .inl ht
  | closeCall | writerDone | closeWs | closeSessions | clearConn | closeReturn => exact .inl ht

/-- Only dialed connections are known to anyone. -/
structure Known (s : State) : Prop where
  published : ∀ c, s.brokerConn = some c → c < s.dialed
  caller : ∀ i ch c, s.callers i = .dialed ch (some c) → c < s.dialed

theorem known_initial : Known initial := ⟨by simp [initial], by simp [initial]⟩

theorem known_step (hs : Known s) (h : step s e = some t) : Known t := by
  have hle := dialed_step h
  constructor
  · intro c hb
    rcases brokerConn_step h with he | ⟨i, ch, d, -, hi, hd⟩ | ⟨d, -, -, hn⟩
    · rw [he] at hb
      exact Nat.lt_of_lt_of_le (hs.published c hb) hle
    · rw [hd] at hb
      cases hb
      exact Nat.lt_of_lt_of_le (hs.caller i ch c hi) hle
    · rw [hn] at hb
      cases hb
  · intro i ch c ht
    rcases held_step h ht with hi | ⟨hc, hd⟩
    · exact Nat.lt_of_lt_of_le (hs.caller i ch c hi) hle
    · rw [hc, hd]
      exact Nat.lt_succ_self _

theorem live_step (hk : Known s) (hs : Live s) (hp : PublishedOpen s e) (h : step s e = some t) :
    Live t := by
  intro c hb
  rcases brokerConn_step h with he | ⟨i, ch, d, rfl, hi, hd⟩ | ⟨d, -, -, hn⟩
  · rw [he] at hb
    rw [dead_step (hk.published c hb) h]
    rintro (hdead | rfl)
    · exact hs c hb hdead
    · cases step_move h with
      | clearConn => simp [hb] at he
  · rw [hd] at hb
    cases hb
    rw [dead_step (hk.caller i ch c hi) h]
    rintro (hdead | hcl)
    · exact hp ch c hi hdead
    · cases hcl
  · rw [hn] at hb
    cases hb

/-- The failing step: the dialed connection is dead before it is published. -/
theorem publish_dead (hp : ¬PublishedOpen s e) : ∃ t, step s e = some t ∧ ¬Live t := by
  cases e with
  | publish i =>
    simp only [PublishedOpen, not_forall, not_not] at hp
    obtain ⟨ch, c, hi, hd⟩ := hp
    refine ⟨publish s i ch (some c), by simp [step, hi], fun hl => ?_⟩
    exact hl c rfl hd
  | _ => exact absurd trivial hp

/-- The published connection is never dead exactly in the runs that publish no
connection on which `close` has already run to completion. -/
theorem published_live_iff (es : List Event) :
    Always step Live initial es ↔ Meets step PublishedOpen initial es := by
  apply always_iff_meets (fun s e t hk h => known_step hk h)
    (fun s e t hk hs hp h => live_step hk hs hp h) (fun s e _ _ hp => publish_dead hp)
  · exact known_initial
  · simp [Live, initial]

/-- The websocket fails and `close` completes between `dialBroker` and the publication. -/
def deadOnArrival : List Event :=
  [.enter 0, .dialOk 0, .closeCall .reader 0, .closeWs 0, .closeSessions 0, .clearConn 0, .publish 0]

theorem dead_published : ¬∀ es : List Event, Always step Live initial es := by
  intro h
  have hl := h deadOnArrival deadOnArrival [] _ (by simp) rfl
  exact hl 0 rfl rfl

/-! ## A dead connection is never replaced -/

/-- The caller is between its two sections. -/
def inDial (s : State) (i : CallerId) : Prop :=
  (∃ ch, s.callers i = .dialing ch) ∨ ∃ ch result, s.callers i = .dialed ch result

/-- `brokerDialing` is the lock of the one caller that dials, taken while nothing is published. -/
structure SingleDial (s : State) : Prop where
  flag : ∀ i, inDial s i → s.brokerDialing = true
  one : ∀ i j, inDial s i → inDial s j → i = j
  unpublished : s.brokerDialing = true → s.brokerConn = none

theorem singleDial_initial : SingleDial initial :=
  ⟨by simp [inDial, initial], by simp [inDial, initial], by simp [initial]⟩

/-- Moving one caller to a place outside the dialing phase takes only it out. -/
theorem inDial_leave {i j : CallerId} {pc : CallerPc} (hd : ∀ ch, pc ≠ .dialing ch)
    (hr : ∀ ch result, pc ≠ .dialed ch result)
    (h : inDial (setCaller s i pc) j) : j ≠ i ∧ inDial s j := by
  by_cases hij : j = i
  · subst hij
    simp [inDial, setCaller, hd, hr] at h
  · simp only [inDial, setCaller, Function.update_of_ne hij] at h
    exact ⟨hij, h⟩

theorem inDial_stay {i j : CallerId} {pc : CallerPc} (hi : inDial s i)
    (h : inDial (setCaller s i pc) j) : inDial s j := by
  by_cases hij : j = i
  · subst hij
    exact hi
  · simp only [inDial, setCaller, Function.update_of_ne hij] at h
    exact h

/-- Who dials after a step: the caller that took the flag, or who did before. -/
theorem inDial_step (h : step s e = some t) :
    (∃ i, s.brokerConn = none ∧ s.brokerDialing = false ∧
      t.brokerConn = none ∧ t.brokerDialing = true ∧ ∀ j, inDial t j → j = i ∨ inDial s j) ∨
    (∃ i, e = .publish i ∧ inDial s i ∧ t.brokerDialing = false ∧
      ∀ j, inDial t j → j ≠ i ∧ inDial s j) ∨
    ((t.brokerConn = s.brokerConn ∨ t.brokerConn = none) ∧ t.brokerDialing = s.brokerDialing ∧
      ∀ j, inDial t j → inDial s j) := by
  cases step_move h with
  | @enter i =>
    unfold enter
    split
    · exact .inr (.inr ⟨.inl rfl, rfl, fun j hj => (inDial_leave (by simp) (by simp) hj).2⟩)
    · rename_i hn
      split
      · exact .inr (.inr ⟨.inl rfl, rfl, fun j hj => (inDial_leave (by simp) (by simp) hj).2⟩)
      · rename_i hf
        refine .inl ⟨i, hn, by simpa using hf, hn, rfl, fun j hj => ?_⟩
        by_cases hij : j = i
        · exact .inl hij
        · right
          simpa [inDial, setCaller, hij] using hj
  | @publish i ch result hi =>
    exact .inr (.inl ⟨i, rfl, .inr ⟨ch, result, hi⟩, rfl,
      fun j hj => inDial_leave (by simp) (by simp) hj⟩)
  | wake =>
    exact .inr (.inr ⟨.inl rfl, rfl, fun j hj => (inDial_leave (by simp) (by simp) hj).2⟩)
  | @dialFailed i ch hi | @dialOk i ch hi =>
    exact .inr (.inr ⟨.inl rfl, rfl, fun j hj => inDial_stay (.inl ⟨ch, hi⟩) hj⟩)
  | @clearConn c =>
    refine .inr (.inr ⟨?_, rfl, fun j hj => hj⟩)
    by_cases hc : s.brokerConn = some c
    · exact .inr (by simp [hc])
    · exact .inl (by simp [hc])
  | closeCall | writerDone | closeWs | closeSessions | closeReturn =>
    exact .inr (.inr ⟨.inl rfl, rfl, fun j hj => hj⟩)

theorem singleDial_step (hs : SingleDial s) (h : step s e = some t) : SingleDial t := by
  obtain ⟨hf, ho, hu⟩ := hs
  rcases inDial_step h with ⟨i, -, hfalse, hn, ht, hj⟩ | ⟨i, -, hi, ht, hj⟩ | ⟨hb, ht, hj⟩
  · have honly : ∀ j, inDial t j → j = i := by
      intro j hd
      rcases hj j hd with he | hs
      · exact he
      · have := hf j hs
        rw [hfalse] at this
        cases this
    exact ⟨fun _ _ => ht, fun j k hdj hdk => by rw [honly j hdj, honly k hdk], fun _ => hn⟩
  · have hnone : ∀ j, ¬inDial t j := by
      intro j hd
      obtain ⟨hne, hs⟩ := hj j hd
      exact hne (ho j i hs hi)
    exact ⟨fun j hd => absurd hd (hnone j), fun j _ hd => absurd hd (hnone j),
      fun hd => by rw [ht] at hd; cases hd⟩
  · refine ⟨fun j hd => by rw [ht]; exact hf j (hj j hd),
      fun j k hdj hdk => ho j k (hj j hdj) (hj k hdk), fun hd => ?_⟩
    rcases hb with hb | hb
    · rw [hb]
      exact hu (by rwa [ht] at hd)
    · exact hb

/-- What is published and dead is handed to every later caller for ever. -/
theorem dead_forever {c : ConnId} {es : List Event} (hk : Known s) (hs : SingleDial s)
    (hb : s.brokerConn = some c) (hd : dead s c) (h : run step s es = some t) :
    t.brokerConn = some c ∧ dead t c := by
  have hinv : (Known t ∧ SingleDial t) ∧ t.brokerConn = some c ∧ dead t c := by
    refine @run_preserves _ _ step
      (fun s => (Known s ∧ SingleDial s) ∧ s.brokerConn = some c ∧ dead s c) ?_ _ _ _
      ⟨⟨hk, hs⟩, hb, hd⟩ h
    intro s e t ⟨⟨hk, hs⟩, hb, hd⟩ h
    refine ⟨⟨known_step hk h, singleDial_step hs h⟩, ?_, (dead_step (hk.published c hb) h).mpr (.inl hd)⟩
    rcases brokerConn_step h with he | ⟨i, ch, d, -, hi, -⟩ | ⟨d, rfl, hd', -⟩
    · rw [he, hb]
    · have hflag := hs.unpublished (hs.flag i (.inr ⟨ch, some d, hi⟩))
      rw [hb] at hflag
      cases hflag
    · rw [hb] at hd'
      cases hd'
      cases step_move h with
      | clearConn hc hstage =>
        rw [dead, hstage] at hd
        cases hd
  exact hinv.2

end SplitProxy.BrokerLink
