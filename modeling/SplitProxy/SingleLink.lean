import Mathlib.Data.List.Induction
import SplitProxy.BrokerLink

/-!
# One dial, one open link

What the callers of `getBrokerConnection` may count on: one of them dials at a time,
no two connections are open, whoever waits is woken by the dial it waits for, and an
error comes from the caller's own dial.
-/
namespace SplitProxy.BrokerLink

open Runs

/-- `done` of a dialed connection is not closed. -/
def doneOpen (s : State) (c : ConnId) : Prop := c < s.dialed ∧ (s.conns c).stage = .notCalled

/-- The caller is between its two sections, and will close this channel. -/
def closes (s : State) (i : CallerId) (ch : WaitId) : Prop :=
  s.callers i = .dialing ch ∨ ∃ result, s.callers i = .dialed ch result

/-- The dial the caller made has failed. -/
def failed (s : State) (i : CallerId) : Prop :=
  s.callers i = .returned none ∨ ∃ ch, s.callers i = .dialed ch none

variable {s t : State} {e : Event} {i j : CallerId} {ch : WaitId} {c : ConnId} {pc : CallerPc}

/-! ## What a step does -/

/-- What `close` and the end of a goroutine change: no connection is opened, and the
published one is cleared only when it is not open. -/
structure Closing (s t : State) (e : Event) : Prop where
  callers : t.callers = s.callers
  dialing : t.brokerDialing = s.brokerDialing
  waitCh : t.brokerWaitCh = s.brokerWaitCh
  woken : t.woken = s.woken
  less : ∀ c, doneOpen t c → doneOpen s c
  published : ∀ c, doneOpen t c → s.brokerConn = some c → t.brokerConn = some c
  event : ∀ i, e ≠ .enter i

theorem doneOpen_setConn {k : Conn} (hk : k.stage = .notCalled → (s.conns c).stage = .notCalled)
    {d : ConnId} (h : doneOpen (setConn s c k) d) : doneOpen s d := by
  obtain ⟨hlt, hstage⟩ := h
  refine ⟨hlt, ?_⟩
  by_cases hd : d = c
  · subst hd
    simp only [setConn, Function.update_self] at hstage
    exact hk hstage
  · simpa only [setConn, Function.update_of_ne hd] using hstage

theorem closing_setConn {k : Conn} (hk : k.stage = .notCalled → (s.conns c).stage = .notCalled)
    (he : ∀ i, e ≠ .enter i) : Closing s (setConn s c k) e :=
  ⟨rfl, rfl, rfl, rfl, fun _ => doneOpen_setConn hk, fun _ _ h => h, he⟩

/-- Every step, by whoever takes it: the five of a caller, and the closing ones. -/
theorem step_cases (h : step s e = some t) :
    (∃ i, e = .enter i ∧ t = enter s i ∧ ¬inDial s i) ∨
    (∃ i ch, e = .wake i ∧ s.callers i = .waiting ch ∧ t = setCaller s i .retry) ∨
    (∃ i ch, e = .dialFailed i ∧ s.callers i = .dialing ch ∧
      t = setCaller s i (.dialed ch none)) ∨
    (∃ i ch, e = .dialOk i ∧ s.callers i = .dialing ch ∧
      t = { setConn (setCaller s i (.dialed ch (some s.dialed))) s.dialed dialedConn with
        dialed := s.dialed + 1 }) ∨
    (∃ i ch result, e = .publish i ∧ s.callers i = .dialed ch result ∧
      t = publish s i ch result) ∨
    Closing s t e := by
  cases step_move h with
  | @enter i hi =>
    refine .inl ⟨i, rfl, rfl, ?_⟩
    rcases hi with hi | hi | ⟨result, hi⟩ <;> simp [inDial, hi]
  | @wake i ch hi => exact .inr (.inl ⟨i, ch, rfl, hi, rfl⟩)
  | @dialFailed i ch hi => exact .inr (.inr (.inl ⟨i, ch, rfl, hi, rfl⟩))
  | @dialOk i ch hi => exact .inr (.inr (.inr (.inl ⟨i, ch, rfl, hi, rfl⟩)))
  | @publish i ch result hi => exact .inr (.inr (.inr (.inr (.inl ⟨i, ch, result, rfl, hi, rfl⟩))))
  | closeCall =>
    refine .inr (.inr (.inr (.inr (.inr (closing_setConn (fun hn => ?_) (by simp))))))
    simp only at hn
    split at hn
    · cases hn
    · exact absurd hn ‹_›
  | @clearConn c hc hstage =>
    have hk : ∀ d, doneOpen (setConn s c { s.conns c with stage := .completed }) d → doneOpen s d :=
      fun d => doneOpen_setConn (by simp)
    refine .inr (.inr (.inr (.inr (.inr ⟨rfl, rfl, rfl, rfl, hk, fun d hd hb => ?_, by simp⟩))))
    have hne : s.brokerConn ≠ some c := by
      intro he
      rw [he] at hb
      cases hb
      have hopen := (hk c hd).2
      rw [hstage] at hopen
      cases hopen
    simp only [if_neg hne]
    exact hb
  | writerDone | closeWs | closeSessions | closeReturn =>
    exact .inr (.inr (.inr (.inr (.inr (closing_setConn (by simp_all) (by simp))))))

/-! ## The dialing caller, its channel and the open link -/

/-- The one who dials has the current channel; a waiter is woken or its dial goes on; an
open connection is published or about to be. -/
structure Linked (s : State) : Prop where
  channel : ∀ i ch, closes s i ch → ch = s.brokerWaitCh
  dialer : s.brokerDialing = true → ∃ i, closes s i s.brokerWaitCh
  waiter : ∀ i ch, s.callers i = .waiting ch → s.woken ch = true ∨ ∃ j, closes s j ch
  opened : ∀ c, doneOpen s c → s.brokerConn = some c ∨ ∃ i ch, s.callers i = .dialed ch (some c)

theorem linked_initial : Linked initial where
  channel := by simp [closes, initial]
  dialer := by simp [initial]
  waiter := by simp [initial]
  opened := by
    rintro c ⟨hlt, -⟩
    exact absurd hlt (Nat.not_lt_zero c)

theorem closes_inDial (h : closes s i ch) : inDial s i := by
  obtain h | ⟨result, h⟩ := h
  · exact .inl ⟨ch, h⟩
  · exact .inr ⟨ch, result, h⟩

theorem closes_unique {ch' : WaitId} (h : closes s i ch) (h' : closes s i ch') : ch = ch' := by
  obtain h | ⟨result, h⟩ := h <;> obtain h' | ⟨result', h'⟩ := h' <;> rw [h] at h' <;> cases h' <;> rfl

theorem callers_other (h : j ≠ i) : (setCaller s i pc).callers j = s.callers j :=
  Function.update_of_ne h _ _

theorem callers_self : (setCaller s i pc).callers i = pc := Function.update_self _ _ _

/-- Between two places outside the dialing phase nobody's dial changes. -/
theorem closes_outside (hs : ¬inDial s i) (hpc : ∀ ch, pc ≠ .dialing ch)
    (hpc' : ∀ ch result, pc ≠ .dialed ch result) :
    closes (setCaller s i pc) j ch ↔ closes s j ch := by
  by_cases hij : j = i
  · subst hij
    constructor
    · rintro (h | ⟨result, h⟩) <;> rw [callers_self] at h
      · exact absurd h (hpc ch)
      · exact absurd h (hpc' ch result)
    · exact fun h => absurd (closes_inDial h) hs
  · simp only [closes, callers_other hij]

/-- A dial that ends leaves its caller with the same channel. -/
theorem closes_inside {result : Option ConnId} (hi : s.callers i = .dialing ch) {ch' : WaitId} :
    closes (setCaller s i (.dialed ch result)) j ch' ↔ closes s j ch' := by
  by_cases hij : j = i
  · subst hij
    simp only [closes, callers_self, hi, reduceCtorEq, CallerPc.dialed.injEq, CallerPc.dialing.injEq,
      exists_and_left, exists_eq', and_true, exists_const, false_or, or_false]
  · simp only [closes, callers_other hij]

/-- Who waits after a caller has moved waited before, if the caller itself does not wait. -/
theorem waiting_other (pc : CallerPc) (hpc : ∀ ch, pc ≠ .waiting ch)
    (h : (setCaller s i pc).callers j = .waiting ch) : s.callers j = .waiting ch := by
  have hij : j ≠ i := by
    rintro rfl
    rw [callers_self] at h
    exact hpc ch h
  rwa [callers_other hij] at h

/-- A connection in the hands of another caller stays there. -/
theorem held_other {c : ConnId} (hi : ∀ ch, s.callers i ≠ .dialed ch (some c))
    (h : ∃ j ch, s.callers j = .dialed ch (some c)) :
    ∃ j ch, (setCaller s i pc).callers j = .dialed ch (some c) := by
  obtain ⟨j, ch, hj⟩ := h
  have hij : j ≠ i := by
    rintro rfl
    exact hi ch hj
  exact ⟨j, ch, (callers_other hij).trans hj⟩

/-- A caller that moves outside keeps the invariant, if it waits for the dial in progress. -/
theorem linked_outside (hl : Linked s) (hs : ¬inDial s i) (hpc : ∀ ch, pc ≠ .dialing ch)
    (hpc' : ∀ ch result, pc ≠ .dialed ch result)
    (hwait : ∀ ch, pc = .waiting ch → s.woken ch = true ∨ ∃ j, closes s j ch) :
    Linked (setCaller s i pc) := by
  have hcloses : ∀ j ch, closes (setCaller s i pc) j ch ↔ closes s j ch :=
    fun _ _ => closes_outside hs hpc hpc'
  refine ⟨fun j ch h => hl.channel j ch ((hcloses j ch).mp h), fun hd => ?_, fun j ch hj => ?_,
    fun c hc => ?_⟩
  · obtain ⟨j, hj⟩ := hl.dialer hd
    exact ⟨j, (hcloses j _).mpr hj⟩
  · have hwaits : s.woken ch = true ∨ ∃ j, closes s j ch := by
      by_cases hij : j = i
      · subst hij
        rw [callers_self] at hj
        exact hwait ch hj
      · rw [callers_other hij] at hj
        exact hl.waiter j ch hj
    refine hwaits.imp id ?_
    rintro ⟨k, hk⟩
    exact ⟨k, (hcloses k ch).mpr hk⟩
  · exact (hl.opened c hc).imp id (held_other fun ch hi => hs (.inr ⟨ch, some c, hi⟩))

theorem linked_enter (hl : Linked s) (hd : SingleDial s) (hs : ¬inDial s i) : Linked (enter s i) := by
  unfold enter
  split
  · exact linked_outside hl hs (by simp) (by simp) (by simp)
  · rename_i hnone
    split
    · rename_i hdialing
      refine linked_outside hl hs (by simp) (by simp) fun ch hch => ?_
      cases hch
      exact .inr (hl.dialer hdialing)
    · rename_i hdialing
      -- nobody dials, so the new dial is the only one
      have hnobody : ∀ j, ¬inDial s j := fun j hj => hdialing (hd.flag j hj)
      have hwait : ∀ j ch, (setCaller s i (.dialing (s.brokerWaitCh + 1))).callers j = .waiting ch →
          s.callers j = .waiting ch := fun _ _ => waiting_other _ nofun
      refine ⟨fun j ch h => ?_, fun _ => ⟨i, .inl callers_self⟩, fun j ch hj => ?_, fun c hc => ?_⟩
      · by_cases hij : j = i
        · subst hij
          exact closes_unique h (.inl callers_self)
        · have hother : closes (setCaller s i (.dialing (s.brokerWaitCh + 1))) j ch := h
          rw [closes, callers_other hij] at hother
          exact absurd (closes_inDial hother) (hnobody j)
      · obtain hwoken | ⟨k, hk⟩ := hl.waiter j ch (hwait j ch hj)
        · exact .inl hwoken
        · exact absurd (closes_inDial hk) (hnobody k)
      · obtain hb | ⟨j, ch, hj⟩ := hl.opened c hc
        · exact .inl hb
        · exact absurd (.inr ⟨ch, some c, hj⟩) (hnobody j)

theorem linked_dialFailed (hl : Linked s) (hi : s.callers i = .dialing ch) :
    Linked (setCaller s i (.dialed ch none)) := by
  have hcloses : ∀ j ch', closes (setCaller s i (.dialed ch none)) j ch' ↔ closes s j ch' :=
    fun _ _ => closes_inside hi
  refine ⟨fun j ch' h => hl.channel j ch' ((hcloses j ch').mp h), fun hd => ?_, fun j ch' hj => ?_,
    fun c hc => ?_⟩
  · obtain ⟨j, hj⟩ := hl.dialer hd
    exact ⟨j, (hcloses j _).mpr hj⟩
  · refine (hl.waiter j ch' (waiting_other (.dialed ch none) nofun hj)).imp id ?_
    rintro ⟨k, hk⟩
    exact ⟨k, (hcloses k ch').mpr hk⟩
  · exact (hl.opened c hc).imp id (held_other fun ch' => by simp [hi])

/-- The new connection is open, and held by the caller that dialed it. -/
theorem linked_dialOk (hl : Linked s) (hi : s.callers i = .dialing ch) :
    Linked { setConn (setCaller s i (.dialed ch (some s.dialed))) s.dialed dialedConn with
      dialed := s.dialed + 1 } := by
  have hcloses : ∀ j ch', closes (setCaller s i (.dialed ch (some s.dialed))) j ch' ↔ closes s j ch' :=
    fun _ _ => closes_inside hi
  refine ⟨fun j ch' h => hl.channel j ch' ((hcloses j ch').mp h), fun hd => ?_, fun j ch' hj => ?_,
    fun c hc => ?_⟩
  · obtain ⟨j, hj⟩ := hl.dialer hd
    exact ⟨j, (hcloses j _).mpr hj⟩
  · refine (hl.waiter j ch' (waiting_other (.dialed ch (some s.dialed)) nofun hj)).imp id ?_
    rintro ⟨k, hk⟩
    exact ⟨k, (hcloses k ch').mpr hk⟩
  · obtain ⟨hlt, hstage⟩ := hc
    by_cases hnew : c = s.dialed
    · subst hnew
      exact .inr ⟨i, ch, callers_self⟩
    · have hold : doneOpen s c := by
        have hconn : (setConn s s.dialed dialedConn).conns c = s.conns c :=
          Function.update_of_ne hnew _ _
        refine ⟨Nat.lt_of_le_of_ne (Nat.le_of_lt_succ hlt) hnew, ?_⟩
        rw [← hconn]
        exact hstage
      exact (hl.opened c hold).imp id (held_other fun ch' => by simp [hi])

/-- The dial is over: nobody dials, and its channel is closed. -/
theorem linked_publish (hl : Linked s) (hd : SingleDial s) {result : Option ConnId}
    (hi : s.callers i = .dialed ch result) : Linked (publish s i ch result) := by
  have hown : inDial s i := .inr ⟨ch, result, hi⟩
  have hnobody : ∀ j ch', ¬closes (setCaller s i (.returned result)) j ch' := by
    intro j ch' h
    obtain ⟨hij, hj⟩ := inDial_leave (by simp) (by simp) (closes_inDial h)
    exact hij (hd.one j i hj hown)
  refine ⟨fun j ch' h => absurd h (hnobody j ch'), fun h => ?_, fun j ch' hj => ?_, fun c hc => ?_⟩
  · cases h
  · have hother : s.callers j = .waiting ch' := waiting_other (.returned result) nofun hj
    left
    change Function.update s.woken ch true ch' = true
    by_cases hch : ch' = ch
    · rw [hch, Function.update_self]
    · rw [Function.update_of_ne hch]
      refine (hl.waiter j ch' hother).resolve_right ?_
      rintro ⟨k, hk⟩
      obtain rfl := hd.one k i (closes_inDial hk) hown
      exact hch (closes_unique hk (.inr ⟨result, hi⟩))
  · left
    have hnone := hd.unpublished (hd.flag i hown)
    obtain hb | ⟨j, ch', hj⟩ := hl.opened c hc
    · rw [hnone] at hb
      cases hb
    · obtain rfl := hd.one j i (.inr ⟨ch', some c, hj⟩) hown
      rw [hi] at hj
      cases hj
      rfl

theorem linked_closing (hl : Linked s) (h : Closing s t e) : Linked t := by
  have hcloses : ∀ j ch', closes t j ch' ↔ closes s j ch' := fun j ch' => by rw [closes, closes, h.callers]
  refine ⟨fun j ch' hj => ?_, fun hd => ?_, fun j ch' hj => ?_, fun c hc => ?_⟩
  · rw [h.waitCh]
    exact hl.channel j ch' ((hcloses j ch').mp hj)
  · rw [h.dialing] at hd
    obtain ⟨j, hj⟩ := hl.dialer hd
    rw [h.waitCh]
    exact ⟨j, (hcloses j _).mpr hj⟩
  · rw [h.callers] at hj
    rw [h.woken]
    refine (hl.waiter j ch' hj).imp id ?_
    rintro ⟨k, hk⟩
    exact ⟨k, (hcloses k ch').mpr hk⟩
  · rw [h.callers]
    exact (hl.opened c (h.less c hc)).imp (h.published c hc) id

theorem linked_step (hl : Linked s) (hd : SingleDial s) (h : step s e = some t) : Linked t := by
  obtain ⟨i, -, rfl, hs⟩ | ⟨i, ch, -, hi, rfl⟩ | ⟨i, ch, -, hi, rfl⟩ | ⟨i, ch, -, hi, rfl⟩ |
    ⟨i, ch, result, -, hi, rfl⟩ | hc := step_cases h
  · exact linked_enter hl hd hs
  · refine linked_outside hl ?_ (by simp) (by simp) (by simp)
    simp [inDial, hi]
  · exact linked_dialFailed hl hi
  · exact linked_dialOk hl hi
  · exact linked_publish hl hd hi
  · exact linked_closing hl hc

/-! ## Errors -/

theorem failed_setCaller (h : failed (setCaller s i pc) j) :
    j ≠ i ∧ failed s j ∨ j = i ∧ (pc = .returned none ∨ ∃ ch, pc = .dialed ch none) := by
  by_cases hij : j = i
  · subst hij
    rw [failed, callers_self] at h
    exact .inr ⟨rfl, h⟩
  · rw [failed, callers_other hij] at h
    exact .inl ⟨hij, h⟩

/-- A caller comes to fail by its own dial, and stops failing when it calls again. -/
theorem failed_step (h : step s e = some t) (hf : failed t j) :
    failed s j ∧ e ≠ .enter j ∨ e = .dialFailed j := by
  obtain ⟨i, rfl, rfl, hs⟩ | ⟨i, ch, rfl, hi, rfl⟩ | ⟨i, ch, rfl, hi, rfl⟩ | ⟨i, ch, rfl, hi, rfl⟩ |
    ⟨i, ch, result, rfl, hi, rfl⟩ | hc := step_cases h
  · have hpc : ∀ pc : CallerPc, ¬(pc = .returned none ∨ ∃ ch, pc = .dialed ch none) →
        failed (setCaller s i pc) j → failed s j ∧ Event.enter i ≠ .enter j ∨
          Event.enter i = .dialFailed j := by
      intro pc hpc hf
      obtain ⟨hij, hold⟩ | ⟨-, hbad⟩ := failed_setCaller hf
      · exact .inl ⟨hold, fun he => hij (Event.enter.inj he).symm⟩
      · exact absurd hbad hpc
    unfold enter at hf
    split at hf
    · exact hpc _ (by simp) hf
    · split at hf
      · exact hpc _ (by simp) hf
      · exact hpc (.dialing (s.brokerWaitCh + 1)) (by simp) hf
  · obtain ⟨-, hold⟩ | ⟨-, hbad⟩ := failed_setCaller hf
    · exact .inl ⟨hold, by simp⟩
    · simp at hbad
  · obtain ⟨-, hold⟩ | ⟨rfl, -⟩ := failed_setCaller hf
    · exact .inl ⟨hold, by simp⟩
    · exact .inr rfl
  · have hf' : failed (setCaller s i (.dialed ch (some s.dialed))) j := hf
    obtain ⟨-, hold⟩ | ⟨-, hbad⟩ := failed_setCaller hf'
    · exact .inl ⟨hold, by simp⟩
    · simp at hbad
  · have hf' : failed (setCaller s i (.returned result)) j := hf
    obtain ⟨-, hold⟩ | ⟨rfl, hnone⟩ := failed_setCaller hf'
    · exact .inl ⟨hold, by simp⟩
    · refine .inl ⟨.inr ⟨ch, ?_⟩, by simp⟩
      simp only [CallerPc.returned.injEq, reduceCtorEq, exists_false, or_false] at hnone
      rw [hi, hnone]
  · rw [failed, hc.callers] at hf
    exact .inl ⟨hf, hc.event j⟩

/-- The failed dial of the caller's current call stands in the run. -/
theorem failed_run {es : List Event} (h : run step initial es = some s) (hf : failed s i) :
    ∃ before after m ch, es = before ++ .dialFailed i :: after ∧ run step initial before = some m ∧
      m.callers i = .dialing ch ∧ .enter i ∉ after := by
  induction es using List.reverseRecOn generalizing s with
  | nil =>
    cases h
    simp [failed, initial] at hf
  | append_singleton es e ih =>
    rw [run_append] at h
    obtain ⟨m, hm, hlast⟩ := Option.bind_eq_some_iff.mp h
    obtain ⟨t, hstep, hend⟩ := run_cons_some hlast
    cases hend
    obtain ⟨hold, hne⟩ | rfl := failed_step hstep hf
    · obtain ⟨before, after, m', ch, rfl, hbefore, hdialing, hafter⟩ := ih hm hold
      refine ⟨before, after ++ [e], m', ch, by simp, hbefore, hdialing, ?_⟩
      rw [List.mem_append, List.mem_singleton]
      exact not_or.mpr ⟨hafter, Ne.symm hne⟩
    · obtain ⟨ch, hdialing⟩ : ∃ ch, m.callers i = .dialing ch := by
        cases step_move hstep with
        | dialFailed hi => exact ⟨_, hi⟩
      exact ⟨es, [], m, ch, rfl, hm, hdialing, List.not_mem_nil⟩

theorem inv_run {es : List Event} (h : run step initial es = some s) : SingleDial s ∧ Linked s :=
  run_preserves (I := fun s => SingleDial s ∧ Linked s)
    (fun _ _ _ hi hs => ⟨singleDial_step hi.1 hs, linked_step hi.2 hi.1 hs⟩)
    ⟨singleDial_initial, linked_initial⟩ h

/-- In every run: one caller dials at a time; no two connections are open; a waiter can
go on, or the dial that will close its channel is still in progress; and a caller that
returns an error has made, in the same call, a dial that failed. -/
theorem single_link (es : List Event) (s : State) (h : run step initial es = some s) :
    (∀ i j ch ch', s.callers i = .dialing ch → s.callers j = .dialing ch' → i = j) ∧
    (∀ c d, doneOpen s c → doneOpen s d → c = d) ∧
    (∀ i ch, s.callers i = .waiting ch →
      (s.woken ch = true ∧ (step s (.wake i)).isSome) ∨ ∃ j, closes s j ch) ∧
    ∀ i, s.callers i = .returned none → ∃ before after m ch,
      es = before ++ .dialFailed i :: after ∧ run step initial before = some m ∧
        m.callers i = .dialing ch ∧ .enter i ∉ after := by
  obtain ⟨hd, hl⟩ := inv_run h
  refine ⟨fun i j ch ch' hi hj => ?_, fun c d hc hd' => ?_, fun i ch hi => ?_, fun i hi => ?_⟩
  · exact hd.one i j (.inl ⟨ch, hi⟩) (.inl ⟨ch', hj⟩)
  · obtain hb | ⟨i, ch, hi⟩ := hl.opened c hc
    · obtain hb' | ⟨j, ch', hj⟩ := hl.opened d hd'
      · rw [hb] at hb'
        exact Option.some.inj hb'
      · have hnone := hd.unpublished (hd.flag j (.inr ⟨ch', some d, hj⟩))
        rw [hb] at hnone
        cases hnone
    · obtain hb' | ⟨j, ch', hj⟩ := hl.opened d hd'
      · have hnone := hd.unpublished (hd.flag i (.inr ⟨ch, some c, hi⟩))
        rw [hb'] at hnone
        cases hnone
      · obtain rfl := hd.one i j (.inr ⟨ch, some c, hi⟩) (.inr ⟨ch', some d, hj⟩)
        rw [hi] at hj
        cases hj
        rfl
  · refine (hl.waiter i ch hi).imp (fun hwoken => ⟨hwoken, ?_⟩) id
    simp [step, hi, hwoken]
  · exact failed_run h (.inl hi)

/-- Two callers: one dials and fails, the other waits and is woken. -/
theorem single_link_example : ∃ s,
    run step initial [.enter 0, .enter 1, .dialFailed 0, .publish 0] = some s ∧
      s.callers 1 = .waiting 1 ∧ s.callers 0 = .returned none ∧
      ∀ i j ch ch', s.callers i = .dialing ch → s.callers j = .dialing ch' → i = j := by
  refine ⟨_, rfl, rfl, rfl, ?_⟩
  exact (single_link [.enter 0, .enter 1, .dialFailed 0, .publish 0] _ rfl).1

end SplitProxy.BrokerLink
