import SplitProxy.WorkerEffects

/-!
# When the frames of a session come in order

The reader starts before CmdConnected is queued and does not wait for it, and
`closeSession` waits for neither. The frames of a session are in order in every run
in which these three goroutines take their turns as if they waited for each other.
-/
namespace SplitProxy.WorkerProcess

open Runs

/-! ## The turns -/

/-- The open goroutine is past `setConn` and has CmdConnected still to send. -/
def OpenPc.owes (pc : OpenPc) : Bool := pc = .connSet || pc = .sendConnected

/-- The reader sends what it has read once the open goroutine has sent CmdConnected, and its
CmdClose not while that is still trying; the loop answers a close frame at no time between
`setConn` and the return from sending CmdConnected, and not while the reader has bytes to
send. -/
def Orderly (s : State) (e : Event) : Prop :=
  (step s e).isSome = true → ∀ (i : Nat) x, s.opens[i]? = some x → Once s i x.id →
    (e = .reader i (.send true) →
      (Sending s i → x.opener = .connected) ∧
        ((s.streams i).reader = .sendClose → x.opener ≠ .sendConnected)) ∧
    (e = .loop (.send true) → s.loop = .sendClose x.id → s.link = x.link →
      x.opener.owes = false ∧ ¬Sending s i)

variable {s t : State} {e : Event} {x y : Session} {i n : Nat} {id : SessionId}

/-! ## What becomes of a session whose close frame is queued -/

/-- `setConn` is still to come. -/
def OpenPc.opening (pc : OpenPc) : Bool :=
  pc.before || pc = .stored || pc = .dialing || pc = .dialed || pc = .connecting

/-- The reader may have been started. -/
def OpenPc.started (pc : OpenPc) : Bool := !pc.early && pc ≠ .connSet

/-- The reader is not sending and may go back to reading. -/
def ReaderPc.reads (pc : ReaderPc) : Bool := pc = .start || pc = .read || pc = .check

/-- Neither CmdConnected nor data can be sent for the session any more. -/
structure Quiet (s : State) (i : Nat) (x : Session) : Prop where
  owes : x.opener.owes = false
  opening : x.opener.opening = true → x.stage = .closed
  reads : (s.streams i).reader.reads = true → x.stage = .closed
  sending : ¬Sending s i

/-- An open goroutine whose session is closed does not come to connect it. -/
theorem openStep_opening {choice : Bool} (hi : s.opens[i]? = some x)
    (howes : x.opener.owes = false) (hclosed : x.opener.opening = true → isDone x = true)
    (h : openStep s i x choice = some t) (hy : t.opens[i]? = some y) :
    y.opener.owes = false ∧ (y.opener.opening = true → x.opener.opening = true) := by
  have hget : ∀ z, (s.set i z).opens[i]? = some z := fun z => (get_set hi i).trans (if_pos rfl)
  cases hpc : x.opener with
  | connSet | sendConnected =>
    rw [hpc] at howes
    cases howes
  | connected | returned =>
    simp only [openStep, hpc] at h
    cases h
  | connecting =>
    simp only [openStep, hpc, hclosed (by rw [hpc]; rfl), ↓reduceIte] at h
    cases h
    cases (hget _).symm.trans hy
    exact ⟨rfl, fun h => by cases h⟩
  | sendClose =>
    simp only [openStep, hpc] at h
    obtain ⟨u, hu, rfl⟩ := Option.map_eq_some_iff.mp h
    obtain ⟨ls, rfl⟩ := sendPacket_some hu
    cases (hget _).symm.trans hy
    exact ⟨rfl, fun h => by cases h⟩
  | abortClose =>
    simp only [openStep, hpc] at h
    split at h
    · cases h
      cases (hget _).symm.trans hy
      exact ⟨rfl, fun h => by cases h⟩
    · cases h
      have hclose : (s.close i).opens[i]? = some (closeStep x) := by simp [State.close, hi]
      cases hclose.symm.trans hy
      rw [closeStep_opener, hpc]
      exact ⟨rfl, fun h => by cases h⟩
  | dialFailed | refused | abortDelete =>
    simp only [openStep, hpc] at h
    cases h
    cases (hget _).symm.trans hy
    exact ⟨rfl, fun h => by cases h⟩
  | failed =>
    simp only [openStep, hpc] at h
    cases h
    cases (hget _).symm.trans hy
    split <;> exact ⟨rfl, fun h => by cases h⟩
  | spawned | checked | stored =>
    simp only [openStep, hpc] at h
    cases h
    cases (hget _).symm.trans hy
    split <;> exact ⟨rfl, fun _ => rfl⟩
  | loaded | dialing | dialed =>
    simp only [openStep, hpc] at h
    split at h
    all_goals
      cases h
      cases (hget _).symm.trans hy
      exact ⟨rfl, fun _ => rfl⟩

theorem update_reader {f : Nat → Streams} {g : Streams} (hg : g.reader = (f i).reader) (j : Nat) :
    (Function.update f i g j).reader = (f j).reader := by
  by_cases hij : j = i
  · rw [hij, Function.update_self, hg]
  · rw [Function.update_of_ne hij]

theorem openStep_reader {choice : Bool} (h : openStep s i x choice = some t) (j : Nat) :
    t.streams j = s.streams j ∨ j = i ∧ x.opener = .connSet := by
  cases hpc : x.opener with
  | connSet =>
    simp only [openStep, hpc] at h
    cases h
    by_cases hij : j = i
    · exact Or.inr ⟨hij, rfl⟩
    · exact Or.inl (Function.update_of_ne hij _ _)
  | sendConnected | sendClose =>
    simp only [openStep, hpc] at h
    obtain ⟨u, hu, rfl⟩ := Option.map_eq_some_iff.mp h
    obtain ⟨ls, rfl⟩ := sendPacket_some hu
    exact Or.inl rfl
  | _ =>
    simp only [openStep, hpc] at h
    repeat' split at h
    all_goals cases h
    all_goals exact Or.inl rfl

theorem loopStep_reader {a : LoopEvent} (h : loopStep s a = some t) (j : Nat) :
    (t.streams j).reader = (s.streams j).reader := by
  cases loopStep_move h with
  | dispatch => rw [dispatch_streams]
  | send _ hu =>
    obtain ⟨ls, rfl⟩ := sendPacket_some hu
    rfl
  | queue =>
    refine update_reader ?_ j
    rfl
  | _ => rfl

/-- A reader moves by its own steps, or is started. -/
theorem reader_step (h : step s e = some t) (j : Nat) :
    (t.streams j).reader = (s.streams j).reader ∨
      (∃ x c, e = .opener j c ∧ s.opens[j]? = some x ∧ x.opener = .connSet) ∨
      ∃ x a, e = .reader j a ∧ s.opens[j]? = some x ∧ ReadMove s j x (s.streams j) a t := by
  cases step_goroutine h with
  | connection hc => exact Or.inl (by rw [hc.streams])
  | opener hi ho =>
    rcases openStep_reader ho j with hsame | ⟨rfl, hx⟩
    · exact Or.inl (by rw [hsame])
    · exact Or.inr (Or.inl ⟨_, _, rfl, hi, hx⟩)
  | writer hi hw =>
    left
    cases writeStep_move hw with
    | closes => rfl
    | _ =>
      refine update_reader ?_ j
      rfl
  | @reader i x a _ hi hr =>
    by_cases hij : j = i
    · subst hij
      exact Or.inr (Or.inr ⟨x, a, rfl, hi, readStep_move hr⟩)
    · left
      cases readStep_move hr with
      | data _ hu | closeSent _ hu =>
        obtain ⟨ls, rfl⟩ := sendPacket_some hu
        simp only [State.setStreams, Function.update_of_ne hij]
      | closes => rfl
      | _ => simp only [State.setStreams, State.delete, Function.update_of_ne hij]
  | loop hl => exact Or.inl (loopStep_reader hl j)

theorem ReadMove.reader_ne {a : ReaderEvent} (h : ReadMove s i x (s.streams i) a t) :
    (s.streams i).reader ≠ .notStarted := by
  cases h with
  | read hr | data hr | closeSent hr | start hr | check hr | closes hr | closed hr | deletes hr =>
    rw [hr]
    simp

/-- The target of a closed session gives no more bytes. -/
theorem read_quiet {a : ReaderEvent} (hx : Sound x) (hq : Quiet s i x) (hd : x.opener ≠ .dialed)
    (hc : x.opener ≠ .connecting) (h : ReadMove s i x (s.streams i) a t) :
    ¬Sending t i ∧ ((t.streams i).reader.reads = true → x.stage = .closed) := by
  have hpc : ∀ (u : State) (g : Streams), (u.setStreams i g).streams i = g :=
    fun u g => Function.update_self _ _ _
  cases h with
  | @read chunk eof hr hlen ht =>
    have hclosed := hq.reads (by rw [hr]; rfl)
    obtain ⟨rfl, rfl⟩ := ht.resolve_left (hx.closed_target hclosed hd hc)
    refine ⟨?_, fun _ => hclosed⟩
    rintro ⟨rest, eof, h⟩
    rw [hpc] at h
    cases h
  | data hr => exact absurd ⟨_, _, hr⟩ hq.sending
  | closeSent hr =>
    refine ⟨?_, fun h => ?_⟩
    · rintro ⟨rest, eof, h⟩
      rw [hpc] at h
      cases h
    · rw [hpc] at h
      cases h
  | start hr | check hr =>
    have hclosed := hq.reads (by rw [hr]; rfl)
    refine ⟨?_, fun _ => hclosed⟩
    rintro ⟨rest, eof, h⟩
    rw [hpc] at h
    dsimp only at h
    split at h <;> cases h
  | closes hr hstage => exact ⟨hq.sending, fun h => hq.reads h⟩
  | closed hr | deletes hr =>
    refine ⟨?_, fun h => ?_⟩
    · rintro ⟨rest, eof, h⟩
      rw [hpc] at h
      cases h
    · rw [hpc] at h
      cases h

/-- Closing is for good. -/
theorem closed_step (h : OpensEffect s e t) (hi : s.opens[i]? = some x) (hx : x.stage = .closed) :
    ∃ y, t.opens[i]? = some y ∧ y.id = x.id ∧ y.stage = .closed := by
  obtain ⟨y, hy, hid, -⟩ := session_after h hi
  refine ⟨y, hy, hid, ?_⟩
  rcases session_before h hy with hz | ⟨z, hz, rfl, -⟩ | ⟨c, z, -, hz, hadv⟩ | ⟨hlen, -⟩
  · rw [hi] at hz
    cases hz
    exact hx
  · rw [hi] at hz
    cases hz
    rw [closeStep, hx]
    exact hx
  · rw [hi] at hz
    cases hz
    exact hadv.stage.trans hx
  · have := (List.getElem?_eq_some_iff.mp hi).1
    omega

/-- What is quiet stays quiet. -/
theorem quiet_step (hx : Sound x) (hq : Quiet s i x)
    (hstarted : (s.streams i).reader ≠ .notStarted → x.opener.started = true)
    (hi : s.opens[i]? = some x) (hy : t.opens[i]? = some y) (h : step s e = some t) :
    Quiet t i y := by
  have hclosed : x.stage = .closed → y.stage = .closed := by
    intro hx
    obtain ⟨z, hz, -, hstage⟩ := closed_step (step_opens h) hi hx
    cases hz.symm.trans hy
    exact hstage
  have hopener : y.opener.owes = false ∧ (y.opener.opening = true → x.opener.opening = true) := by
    rcases session_before (step_opens h) hy with hz | ⟨z, hz, rfl, -⟩ | ⟨c, z, rfl, hz, -⟩ |
      ⟨hlen, -⟩
    · cases hi.symm.trans hz
      exact ⟨hq.owes, fun h => h⟩
    · cases hi.symm.trans hz
      rw [closeStep_opener]
      exact ⟨hq.owes, fun h => h⟩
    · simp only [step, hi] at h
      exact openStep_opening hi hq.owes (fun ho => by simp [isDone, hq.opening ho]) h hy
    · have := (List.getElem?_eq_some_iff.mp hi).1
      omega
  have hreader : ¬Sending t i ∧ ((t.streams i).reader.reads = true → x.stage = .closed) := by
    rcases reader_step h i with hsame | ⟨z, c, -, hz, hpc⟩ | ⟨z, a, -, hz, hmove⟩
    · rw [Sending, hsame]
      exact ⟨hq.sending, hq.reads⟩
    · cases hi.symm.trans hz
      have howes := hq.owes
      rw [hpc] at howes
      cases howes
    · cases hi.symm.trans hz
      have hpc := hstarted hmove.reader_ne
      refine read_quiet hx hq (fun hd => ?_) (fun hc => ?_) hmove
      · rw [hd] at hpc
        cases hpc
      · rw [hc] at hpc
        cases hpc
  exact ⟨hopener.1, fun h => hclosed (hq.opening (hopener.2 h)), fun h => hclosed (hreader.2 h),
    hreader.1⟩

/-! ## In every run -/

theorem openStep_started {choice : Bool} (hi : s.opens[i]? = some x)
    (hx : x.opener.started = true ∨ x.opener = .connSet) (h : openStep s i x choice = some t)
    (hy : t.opens[i]? = some y) : y.opener.started = true := by
  have hget : ∀ z, (s.set i z).opens[i]? = some z := fun z => (get_set hi i).trans (if_pos rfl)
  cases hpc : x.opener with
  | connSet | abortDelete =>
    simp only [openStep, hpc] at h
    cases h
    cases (hget _).symm.trans hy
    rfl
  | sendConnected =>
    simp only [openStep, hpc] at h
    obtain ⟨u, hu, rfl⟩ := Option.map_eq_some_iff.mp h
    obtain ⟨ls, rfl⟩ := sendPacket_some hu
    cases (hget _).symm.trans hy
    cases choice <;> rfl
  | abortClose =>
    simp only [openStep, hpc] at h
    split at h
    · cases h
      cases (hget _).symm.trans hy
      rfl
    · cases h
      have hclose : (s.close i).opens[i]? = some (closeStep x) := by simp [State.close, hi]
      cases hclose.symm.trans hy
      rw [closeStep_opener, hpc]
      rfl
  | connected | returned =>
    simp only [openStep, hpc] at h
    cases h
  | _ =>
    rw [hpc] at hx
    rcases hx with hx | hx <;> cases hx

/-- What holds in every run that keeps the turns. -/
structure Ordered (s : State) : Prop where
  started : ∀ (i : Nat) x, s.opens[i]? = some x → (s.streams i).reader ≠ .notStarted →
    x.opener.started = true
  unused : ∀ i, s.opens.length ≤ i → (s.streams i).reader = .notStarted
  answering : ∀ id, s.loop = .sendClose id →
    ∃ (i : Nat) (x : Session), s.opens[i]? = some x ∧ x.id = id ∧ x.stage = .closed
  quiet : ∀ (i : Nat) x, s.opens[i]? = some x → Once s i x.id →
    .close ∈ commands s x.link x.id → Quiet s i x

theorem ordered_start : Ordered start := by
  refine ⟨fun i x hi => ?_, fun _ _ => rfl, fun id hl => ?_, fun i x hi => ?_⟩
  · cases hi
  · cases hl
  · cases hi

theorem started_step (hs : Ordered s) (hy : t.opens[i]? = some y)
    (hr : (t.streams i).reader ≠ .notStarted) (h : step s e = some t) :
    y.opener.started = true := by
  have hfrom : (∃ x c, e = .opener i c ∧ s.opens[i]? = some x ∧ x.opener = .connSet) ∨
      (s.streams i).reader ≠ .notStarted := by
    rcases reader_step h i with hsame | ⟨x, c, he, hi, hx⟩ | ⟨x, a, -, -, hmove⟩
    · exact Or.inr (hsame ▸ hr)
    · exact Or.inl ⟨x, c, he, hi, hx⟩
    · exact Or.inr hmove.reader_ne
  rcases hfrom with ⟨x, c, rfl, hi, hpc⟩ | hr
  · simp only [step, hi] at h
    exact openStep_started hi (Or.inr hpc) h hy
  · rcases session_before (step_opens h) hy with hi | ⟨x, hi, rfl, -⟩ | ⟨c, x, rfl, hi, -⟩ |
      ⟨hlen, -⟩
    · exact hs.started i y hi hr
    · rw [closeStep_opener]
      exact hs.started i x hi hr
    · simp only [step, hi] at h
      exact openStep_started hi (Or.inl (hs.started i x hi hr)) h hy
    · exact absurd (hs.unused i (Nat.le_of_eq hlen.symm)) hr

theorem unused_reader (hs : Ordered s) (hi : t.opens.length ≤ i) (h : step s e = some t) :
    (t.streams i).reader = .notStarted := by
  have hnone : ∀ x, s.opens[i]? ≠ some x := by
    intro x hx
    obtain ⟨y, hy, -⟩ := session_after (step_opens h) hx
    have := (List.getElem?_eq_some_iff.mp hy).1
    omega
  rcases reader_step h i with hsame | ⟨x, c, -, hx, -⟩ | ⟨x, a, -, hx, -⟩
  · rw [hsame]
    exact hs.unused i (List.getElem?_eq_none_iff.mp (Option.eq_none_iff_forall_ne_some.mpr hnone))
  · exact absurd hx (hnone x)
  · exact absurd hx (hnone x)

theorem answering_step (hinv : Inv s) (hs : Ordered s) (h : step s e = some t)
    (hl : t.loop = .sendClose id) :
    ∃ (i : Nat) (y : Session), t.opens[i]? = some y ∧ y.id = id ∧ y.stage = .closed := by
  have hold : ∃ (i : Nat) (x : Session), s.opens[i]? = some x ∧ x.id = id ∧ x.stage = .closed := by
    cases step_turn h with
    | stays hl' hk => exact hs.answering id (hl' ▸ hl)
    | deleted i id' who hl' ht hk =>
      rw [ht] at hl
      cases who <;> cases hl
      exact ⟨i, hinv.deleting i id .frame hl'⟩
    | leaves hl' ht hk =>
      rw [hl] at ht
      cases ht
    | receives msg f he hf hl' ht hk | reads hl' ht hk | delivers f i hl' hf hm ht hk
    | full i id' p hl' ht hk | finds f i hl' ht hk | overflows id' i hl' ht hk
    | closed i id' who hl' ht hk | replies id' hl' ht hk hsent | reconnects hl' ht hk =>
      rw [ht] at hl
      cases hl
  obtain ⟨i, x, hi, hid, hx⟩ := hold
  obtain ⟨y, hy, hyid, hstage⟩ := closed_step (step_opens h) hi hx
  exact ⟨i, y, hy, hyid.trans hid, hstage⟩

/-- Past `setConn` nothing is left but to send CmdConnected, and perhaps to abort. -/
theorem started_cases {pc : OpenPc} (h : pc.started = true) (hsend : pc ≠ .sendConnected) :
    pc.owes = false ∧ pc.opening = false := by
  cases pc with
  | sendConnected => exact absurd rfl hsend
  | abortClose | abortDelete | connected | returned => exact ⟨rfl, rfl⟩
  | _ => cases h

/-- Whoever sends CmdClose in its turn leaves the session quiet. -/
theorem quiet_of_sendsClose (hs : Ordered s) (hC : Orderly s e) (honce : Once s i x.id)
    (hi : s.opens[i]? = some x) (hclose : SendsClose s e x.link x.id) (h : step s e = some t) :
    ∃ y, t.opens[i]? = some y ∧ Quiet t i y := by
  have hC := hC (by rw [h]; rfl) i x hi honce
  cases hclose with
  | opener j z he hj hz hid hn =>
    cases he
    obtain ⟨rfl, rfl⟩ := once_eq hj hi honce hid
    -- the dial has failed, and there is no reader
    have hnone : (s.streams i).reader = .notStarted := by
      by_contra hr
      have hst := hs.started i x hi hr
      rw [hz] at hst
      cases hst
    simp only [step, hi, openStep, hz] at h
    obtain ⟨u, hu, rfl⟩ := Option.map_eq_some_iff.mp h
    obtain ⟨ls, rfl⟩ := sendPacket_some hu
    refine ⟨_, (get_set hi i).trans (if_pos rfl), rfl, fun ho => ?_, fun hr => ?_, ?_⟩
    · cases ho
    · change (s.streams i).reader.reads = true at hr
      rw [hnone] at hr
      cases hr
    · rintro ⟨rest, eof, hr⟩
      cases hnone.symm.trans hr
  | reader j z he hj hr hid hn =>
    cases he
    obtain ⟨rfl, rfl⟩ := once_eq hj hi honce hid
    have hst := hs.started i x hi (by simp [hr])
    obtain ⟨howes, hopening⟩ := started_cases hst ((hC.1 rfl).2 hr)
    simp only [step, hi, readStep, hr] at h
    obtain ⟨u, hu, rfl⟩ := Option.map_eq_some_iff.mp h
    obtain ⟨ls, rfl⟩ := sendPacket_some hu
    have hpc : ∀ g : Streams, (State.setStreams { s with links := ls } i g).streams i = g :=
      fun g => Function.update_self _ _ _
    refine ⟨x, hi, howes, fun ho => ?_, fun h => ?_, ?_⟩
    · rw [hopening] at ho
      cases ho
    · rw [hpc] at h
      cases h
    · rintro ⟨rest, eof, h⟩
      rw [hpc] at h
      cases h
  | loop he hl hn =>
    cases he
    -- `closeSession` has closed the session before it answers
    obtain ⟨j, z, hj, hid, hstage⟩ := hs.answering x.id hl
    obtain ⟨rfl, rfl⟩ := once_eq hj hi honce hid
    obtain ⟨howes, hsending⟩ := hC.2 rfl hl hn
    simp only [step, loopStep, hl] at h
    obtain ⟨u, hu, rfl⟩ := Option.map_eq_some_iff.mp h
    obtain ⟨ls, rfl⟩ := sendPacket_some hu
    exact ⟨_, hi, howes, fun _ => hstage, fun _ => hstage, hsending⟩

/-- A close frame in the queue was there before, or its sender has just put it there. -/
theorem close_queued (h : SendEffect s e t) (hc : .close ∈ commands t n id) :
    .close ∈ commands s n id ∨ SendsClose s e n id := by
  cases h with
  | quiet hkeys hsent | spawn f hkeys hsent => exact Or.inl (commands_quiet hsent n ▸ hc)
  | connected j z hj hz he hkeys hpush =>
    rw [commands_push hpush] at hc
    refine Or.inl ((List.mem_append.mp hc).resolve_right fun hc => ?_)
    split at hc
    · cases List.mem_singleton.mp hc
    · cases hc
  | data j z p hj hr he hkeys hpush =>
    rw [commands_push hpush] at hc
    refine Or.inl ((List.mem_append.mp hc).resolve_right fun hc => ?_)
    split at hc
    · exact (dataCommand_ne z).1 (List.mem_singleton.mp hc).symm
    · cases hc
  | close m id' hid hkeys hpush hfrom =>
    rw [commands_push hpush] at hc
    rcases List.mem_append.mp hc with hc | hc
    · exact Or.inl hc
    · split at hc
      · rename_i hsame
        obtain ⟨rfl, rfl⟩ := hsame
        exact Or.inr hfrom
      · cases hc

/-- A close frame is queued only for an id that has been opened. -/
theorem opened_of_close (ht : Tally s) (hs : Ordered s)
    (hc : .close ∈ commands s n id ∨ SendsClose s e n id) :
    ∃ (i : Nat) (x : Session), s.opens[i]? = some x ∧ x.id = id := by
  rcases hc with hc | hc
  · obtain ⟨⟨cmd, p⟩, hp, -⟩ := List.mem_map.mp hc
    obtain ⟨x, hx, hid⟩ := ht.known n _ (mem_packetsOf.mp hp)
    obtain ⟨i, hi⟩ := List.mem_iff_getElem?.mp hx
    exact ⟨i, x, hi, hid⟩
  · cases hc with
    | opener i x he hi hx hid hn | reader i x he hi hx hid hn => exact ⟨i, x, hi, hid⟩
    | loop he hl hn =>
      obtain ⟨i, x, hi, hid, -⟩ := hs.answering id hl
      exact ⟨i, x, hi, hid⟩

theorem ordered_step (ht : Tally s) (hs : Ordered s) (hC : Orderly s e) (h : step s e = some t) :
    Ordered t := by
  refine ⟨fun i y hy hr => started_step hs hy hr h, fun i hi => unused_reader hs hi h,
    fun id hl => answering_step ht.inv hs h hl, fun i y hy honce hc => ?_⟩
  -- the sessions of the id after the step include those before it
  have hbefore : ∀ (j : Nat) z, s.opens[j]? = some z → z.id = y.id → j = i := by
    intro j z hj hid
    obtain ⟨z', hz', hzid, -⟩ := session_after (step_opens h) hj
    exact honce j z' hz' (hzid.trans hid)
  have hclose := close_queued (step_sends ht.answers h) hc
  obtain ⟨j, x, hi, hxid⟩ := opened_of_close ht hs hclose
  obtain rfl := hbefore j x hi hxid
  obtain ⟨y', hy', hid, hlink, -⟩ := session_after (step_opens h) hi
  cases hy.symm.trans hy'
  rw [hid, hlink] at hclose
  have honce' : Once s j x.id := fun k z hk hz => hbefore k z hk (hz.trans hxid)
  rcases hclose with hc | hc
  · exact quiet_step (ht.inv.sound j x hi) (hs.quiet j x hi honce' hc) (hs.started j x hi) hi hy h
  · obtain ⟨y', hy', hquiet⟩ := quiet_of_sendsClose hs hC honce' hi hc h
    cases hy.symm.trans hy'
    exact hquiet

/-- Frames sent in their turn are queued in order. -/
theorem inOrder_of_orderly (hs : Ordered s) (hC : Orderly s e) : InOrder s e := by
  intro hen i x hi honce
  have hturn := (hC hen i x hi honce).1
  refine ⟨fun _ hx hclose => ?_, fun he hr => ⟨(hturn he).1 hr, fun hclose => ?_⟩⟩
  · have howes := (hs.quiet i x hi honce hclose).owes
    rw [hx] at howes
    cases howes
  · exact (hs.quiet i x hi honce hclose).sending hr

/-- The frames of every session opened once are in order in every run that keeps the turns. -/
theorem grammatical_of_orderly (es : List Event) (h : Meets step Orderly start es) :
    Always step Grammatical start es := by
  have hinOrder : Meets step InOrder start es :=
    meets_of_invariant (I := fun s => Tally s ∧ Ordered s)
      (fun s e t hs hC hst => ⟨tally_step hs.1 hst, ordered_step hs.1 hs.2 hC hst⟩)
      (fun s e hs hC => inOrder_of_orderly hs.2 hC) ⟨tally_start, ordered_start⟩ h
  exact (grammatical_iff_inOrder es).mpr hinOrder

instance {s : State} {i : Nat} : Decidable (Sending s i) :=
  match h : (s.streams i).reader with
  | .send rest eof => isTrue ⟨rest, eof, h⟩
  | .notStarted | .start | .read | .check | .close | .delete | .sendClose | .returned =>
    isFalse fun hr => by
      obtain ⟨rest, eof, hr⟩ := hr
      rw [h] at hr
      cases hr

instance {s : State} {i : Nat} {id : SessionId} : Decidable (Once s i id) :=
  inferInstanceAs (Decidable (∀ (j : Nat) y, s.opens[j]? = some y → y.id = id → j = i))

instance {s : State} {e : Event} : Decidable (Orderly s e) :=
  inferInstanceAs (Decidable ((step s e).isSome = true →
    ∀ (i : Nat) x, s.opens[i]? = some x → Once s i x.id →
      (e = .reader i (.send true) →
        (Sending s i → x.opener = .connected) ∧
          ((s.streams i).reader = .sendClose → x.opener ≠ .sendConnected)) ∧
      (e = .loop (.send true) → s.loop = .sendClose x.id → s.link = x.link →
        x.opener.owes = false ∧ ¬Sending s i)))

def talkingId : SessionId := ⟨List.replicate 36 0x65, rfl⟩

def closedId : SessionId := ⟨List.replicate 36 0x66, rfl⟩

/-- One target answers and hangs up, and one session is closed by a close frame, each after
CmdConnected has been sent. -/
def inTurn : List Event :=
  List.flatten [[.loop (.receive (talkingId.1 ++ [1])), .loop .dispatch],
    List.replicate 8 (.opener 0 true),
    [.reader 0 .next, .reader 0 (.read [0x68, 0x69] false), .opener 0 true, .reader 0 (.send true),
      .reader 0 .next, .reader 0 (.read [] true)],
    List.replicate 5 (.reader 0 .next),
    [.reader 0 (.send true), .loop (.receive (closedId.1 ++ [1])), .loop .dispatch],
    List.replicate 9 (.opener 1 true),
    [.loop (.receive (closedId.1 ++ [3])), .loop .dispatch],
    List.replicate 5 (.loop .next),
    [.loop (.send true)]]

theorem inTurn_grammatical : Meets step Orderly start inTurn ∧
    Always step Grammatical start inTurn ∧
    (run step start inTurn).map (fun s => (commands s 0 talkingId, commands s 0 closedId)) =
      some ([.connected, .data, .close], [.connected, .close]) := by
  have hturns : Meets step Orderly start inTurn := by decide +kernel
  exact ⟨hturns, grammatical_of_orderly inTurn hturns, by decide +kernel⟩

end SplitProxy.WorkerProcess
