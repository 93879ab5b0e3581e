import SplitProxy.WorkerGrammar

/-!
# What a step of the worker changes

A step of the worker process, seen from one part of its state at a time: the
session an open goroutine makes, its writer and reader, and the position of the
loop. What is closed, cancelled or queued stays so.
-/
namespace SplitProxy.WorkerProcess

variable {s t : State} {e : Event} {x y : Session} {i n : Nat} {id : SessionId}

/-! ## Who makes a step -/

theorem setLink_done {m : Nat} {l : Link} (hl : (s.links m).done = true → l.done = true)
    (hd : (s.links n).done = true) : ((s.setLink m l).links n).done = true := by
  by_cases hm : n = m
  · subst hm
    simp [State.setLink, hl hd]
  · simp [State.setLink, hm, hd]

/-- The context and the goroutines of a connection touch no session and no loop. -/
structure OnConnection (s t : State) : Prop where
  opens : t.opens = s.opens
  streams : t.streams = s.streams
  done : ∀ n, (s.links n).done = true → (t.links n).done = true

inductive Goroutine (s : State) : Event → State → Prop where
  | connection {e : Event} {t : State} (h : OnConnection s t) : Goroutine s e t
  | opener {i : Nat} {x : Session} {choice : Bool} {t : State} (hi : s.opens[i]? = some x)
      (h : openStep s i x choice = some t) : Goroutine s (.opener i choice) t
  | writer {i : Nat} {x : Session} {a : WriterEvent} {t : State} (hi : s.opens[i]? = some x)
      (h : writeStep s i x (s.streams i) a = some t) : Goroutine s (.writer i a) t
  | reader {i : Nat} {x : Session} {a : ReaderEvent} {t : State} (hi : s.opens[i]? = some x)
      (h : readStep s i x (s.streams i) a = some t) : Goroutine s (.reader i a) t
  | loop {a : LoopEvent} {t : State} (h : loopStep s a = some t) : Goroutine s (.loop a) t

theorem step_goroutine (h : step s e = some t) : Goroutine s e t := by
  cases e with
  | cancel =>
    cases h
    exact .connection ⟨rfl, rfl, fun _ hd => hd⟩
  | watch =>
    simp only [step] at h
    split at h <;> cases h
    exact .connection ⟨rfl, rfl, fun _ hd => setLink_done (fun _ => rfl) hd⟩
  | brokerWrite m ok =>
    simp only [step] at h
    split at h
    · obtain ⟨r, -, rfl⟩ := Option.map_eq_some_iff.mp h
      refine .connection ⟨rfl, rfl, fun _ hd => setLink_done (fun hm => ?_) hd⟩
      cases ok
      · rfl
      · exact hm
    · cases h
  | brokerPing m =>
    simp only [step] at h
    split at h <;> cases h
    exact .connection ⟨rfl, rfl, fun _ hd => setLink_done (fun _ => rfl) hd⟩
  | brokerStop m =>
    simp only [step] at h
    split at h <;> cases h
    exact .connection ⟨rfl, rfl, fun _ hd => setLink_done (fun hm => hm) hd⟩
  | opener j choice =>
    simp only [step] at h
    split at h
    · cases h
    · exact .opener ‹_› h
  | writer j a =>
    simp only [step] at h
    split at h
    · cases h
    · exact .writer ‹_› h
  | reader j a =>
    simp only [step] at h
    split at h
    · cases h
    · exact .reader ‹_› h
  | loop a => exact .loop h

/-! ## What a step can do to one session -/

/-- Who makes the next step of `Session.close` on this session. -/
inductive Closer (s : State) (e : Event) (i : Nat) : Prop where
  | opener (c : Bool) (x : Session) (he : e = .opener i c) (hi : s.opens[i]? = some x)
      (hx : x.opener = .abortClose) : Closer s e i
  | writer (k : Nat) (hw : (s.streams k).writer = .close i) : Closer s e i
  | reader (hr : (s.streams i).reader = .close) : Closer s e i
  | loop (id : SessionId) (who : Caller) (hl : s.loop = .closing i id who) : Closer s e i

/-- Why the open goroutine goes where it goes. -/
inductive Outcome (s t : State) (x : Session) : OpenPc → Prop where
  | goesOn {pc : OpenPc} (hfinal : pc.final = false) (hclose : pc ≠ .abortClose)
      (hdelete : pc ≠ .abortDelete) : Outcome s t x pc
  | stops {pc : OpenPc} (h : s.cancelled = true ∨ (s.links x.link).done = true) : Outcome s t x pc
  | aborts {pc : OpenPc} (h : x.opener = .abortClose ∨ x.opener = .abortDelete) : Outcome s t x pc
  | refused {pc : OpenPc} (h : x.opener = .refused) : Outcome s t x pc
  | taken (h : (s.sessions x.id).isSome = true) (hx : x.opener.before = true) :
      Outcome s t x .returned
  | sends {pc : OpenPc} (c : Command) (hc : c = .connected ∨ c = .close)
      (hpush : Pushes s t x.link ⟨x.id, c, []⟩) : Outcome s t x pc

/-- One step of an open goroutine other than in `Session.close`. -/
structure Advance (s t : State) (x y : Session) : Prop where
  id : y.id = x.id
  link : y.link = x.link
  stage : y.stage = x.stage
  stored : x.stored = true → y.stored = true
  kept : y.opener.final = true → y.stored = x.stored
  early : y.opener.early = true → x.opener.early = true
  outcome : Outcome s t x y.opener

inductive OpensEffect (s : State) (e : Event) (t : State) : Prop where
  | same (h : t.opens = s.opens) : OpensEffect s e t
  | close (i : Nat) (h : t.opens = (s.close i).opens) (hi : Closer s e i) : OpensEffect s e t
  | advance (i : Nat) (c : Bool) (x y : Session) (he : e = .opener i c) (hi : s.opens[i]? = some x)
      (h : t.opens = (s.set i y).opens) (hy : Advance s t x y) : OpensEffect s e t
  | spawn (f : Frame SessionId) (hl : s.loop = .dispatch f)
      (h : t.opens = s.opens ++ [newSession s f]) : OpensEffect s e t

theorem sendPacket_refused {f : Frame SessionId} (h : s.sendPacket n f false = some t) :
    (s.links n).done = true := by
  simp only [State.sendPacket, Bool.false_eq_true, ↓reduceIte] at h
  split at h
  · assumption
  · cases h

theorem openStep_opens {choice : Bool} (hi : s.opens[i]? = some x)
    (h : openStep s i x choice = some t) : OpensEffect s (.opener i choice) t := by
  -- a step that changes the session itself
  have hadvance : ∀ {y : Session}, t.opens = (s.set i y).opens → y.id = x.id → y.link = x.link →
      y.stage = x.stage → y.stored = x.stored ∨ y.stored = true ∧ y.opener.final = false →
      (y.opener.early = true → x.opener.early = true) → Outcome s t x y.opener →
      OpensEffect s (.opener i choice) t := by
    intro y hopens hid hlink hstage hstored hearly hout
    refine .advance i choice x y rfl hi hopens ⟨hid, hlink, hstage, fun hx => ?_, fun hf => ?_,
      hearly, hout⟩
    · rcases hstored with hy | hy
      · exact hy.trans hx
      · exact hy.1
    · rcases hstored with hy | hy
      · exact hy
      · rw [hy.2] at hf
        cases hf
  cases hpc : x.opener with
  | spawned =>
    simp only [openStep, hpc] at h
    cases h
    refine hadvance rfl rfl rfl rfl (Or.inl rfl) (fun _ => by rw [hpc]; rfl) ?_
    split
    · exact .stops (Or.inl ‹_›)
    · exact .goesOn rfl (by simp) (by simp)
  | checked =>
    simp only [openStep, hpc] at h
    cases h
    refine hadvance rfl rfl rfl rfl (Or.inl rfl) (fun _ => by rw [hpc]; rfl) ?_
    split
    · exact .taken ‹_› (by rw [hpc]; rfl)
    · exact .goesOn rfl (by simp) (by simp)
  | loaded =>
    simp only [openStep, hpc] at h
    split at h
    · cases h
      exact hadvance rfl rfl rfl rfl (Or.inl rfl) (fun _ => by rw [hpc]; rfl)
        (.taken ‹_› (by rw [hpc]; rfl))
    · cases h
      exact hadvance rfl rfl rfl rfl (Or.inr ⟨rfl, rfl⟩) (fun _ => by rw [hpc]; rfl)
        (.goesOn rfl (by simp) (by simp))
  | stored =>
    simp only [openStep, hpc] at h
    cases h
    refine hadvance rfl rfl rfl rfl (Or.inl rfl) (fun _ => by rw [hpc]; rfl) ?_
    split
    · exact .stops (Or.inl ‹_›)
    · exact .goesOn rfl (by simp) (by simp)
  | dialing =>
    simp only [openStep, hpc] at h
    split at h
    all_goals
      cases h
      exact hadvance rfl rfl rfl rfl (Or.inl rfl) (fun _ => by rw [hpc]; rfl)
        (.goesOn rfl (by simp) (by simp))
  | dialed =>
    simp only [openStep, hpc] at h
    split at h
    · cases h
      exact hadvance rfl rfl rfl rfl (Or.inl rfl) (fun _ => by rw [hpc]; rfl) (.stops (Or.inl ‹_›))
    · cases h
      exact hadvance rfl rfl rfl rfl (Or.inl rfl) (fun _ => by rw [hpc]; rfl)
        (.goesOn rfl (by simp) (by simp))
  | connecting =>
    simp only [openStep, hpc] at h
    split at h
    all_goals
      cases h
      exact hadvance rfl rfl rfl rfl (Or.inl rfl) (fun _ => by rw [hpc]; rfl)
        (.goesOn rfl (by simp) (by simp))
  | connSet =>
    simp only [openStep, hpc] at h
    cases h
    exact hadvance rfl rfl rfl rfl (Or.inl rfl) (by simp [OpenPc.early]) (.goesOn rfl (by simp) (by simp))
  | sendConnected =>
    simp only [openStep, hpc] at h
    obtain ⟨u, hu, rfl⟩ := Option.map_eq_some_iff.mp h
    obtain ⟨⟨ls, rfl⟩, ⟨rfl, hpush⟩ | ⟨rfl, -⟩⟩ := sendPacket_pushes hu
    · exact hadvance rfl rfl rfl rfl (Or.inl rfl) (by simp [OpenPc.early]) (.sends .connected (Or.inl rfl) hpush)
    · exact hadvance rfl rfl rfl rfl (Or.inl rfl) (by simp [OpenPc.early]) (.stops (Or.inr (sendPacket_refused hu)))
  | dialFailed =>
    simp only [openStep, hpc] at h
    cases h
    exact hadvance rfl rfl rfl rfl (Or.inl rfl) (fun _ => by rw [hpc]; rfl)
      (.goesOn rfl (by simp) (by simp))
  | failed =>
    simp only [openStep, hpc] at h
    cases h
    refine hadvance rfl rfl rfl rfl (Or.inl rfl) (fun _ => by rw [hpc]; rfl) ?_
    split
    · exact .stops (Or.inl ‹_›)
    · exact .goesOn rfl (by simp) (by simp)
  | sendClose =>
    simp only [openStep, hpc] at h
    obtain ⟨u, hu, rfl⟩ := Option.map_eq_some_iff.mp h
    obtain ⟨⟨ls, rfl⟩, ⟨rfl, hpush⟩ | ⟨rfl, -⟩⟩ := sendPacket_pushes hu
    · exact hadvance rfl rfl rfl rfl (Or.inl rfl) (by simp [OpenPc.early]) (.sends .close (Or.inr rfl) hpush)
    · exact hadvance rfl rfl rfl rfl (Or.inl rfl) (by simp [OpenPc.early]) (.stops (Or.inr (sendPacket_refused hu)))
  | refused =>
    simp only [openStep, hpc] at h
    cases h
    exact hadvance rfl rfl rfl rfl (Or.inl rfl) (by simp [OpenPc.early]) (.refused hpc)
  | abortClose =>
    simp only [openStep, hpc] at h
    split at h
    · cases h
      exact hadvance rfl rfl rfl rfl (Or.inl rfl) (by simp [OpenPc.early]) (.aborts (Or.inl hpc))
    · cases h
      exact .close i rfl (.opener choice x rfl hi hpc)
  | abortDelete =>
    simp only [openStep, hpc] at h
    cases h
    exact hadvance rfl rfl rfl rfl (Or.inl rfl) (by simp [OpenPc.early]) (.aborts (Or.inr hpc))
  | connected | returned =>
    simp only [openStep, hpc] at h
    cases h

theorem writeStep_opens {a : WriterEvent} (h : writeStep s i x (s.streams i) a = some t) :
    OpensEffect s e t := by
  cases writeStep_move h with
  | @closes j _ hw => exact .close j rfl (.writer i hw)
  | _ => exact .same rfl

theorem readStep_opens {a : ReaderEvent} (h : readStep s i x (s.streams i) a = some t) :
    OpensEffect s e t := by
  cases readStep_move h with
  | data _ hu | closeSent _ hu =>
    obtain ⟨ls, rfl⟩ := sendPacket_some hu
    exact .same rfl
  | closes hr => exact .close i rfl (.reader hr)
  | _ => exact .same rfl

theorem dispatch_opens {f : Frame SessionId} (hl : s.loop = .dispatch f) :
    OpensEffect s e (dispatch s f) := by
  unfold dispatch
  split
  case h_1 | h_2 =>
    split
    · exact .same rfl
    · exact .spawn f hl rfl
  case h_6 => exact .same rfl
  all_goals
    split
    all_goals exact .same rfl

theorem loopStep_opens {a : LoopEvent} (h : loopStep s a = some t) : OpensEffect s e t := by
  cases loopStep_move h with
  | dispatch hl => exact dispatch_opens hl
  | send _ hu =>
    obtain ⟨ls, rfl⟩ := sendPacket_some hu
    exact .same rfl
  | @closes j id who _ hl => exact .close j rfl (.loop id who hl)
  | _ => exact .same rfl

theorem step_opens (h : step s e = some t) : OpensEffect s e t := by
  cases step_goroutine h with
  | connection h => exact .same h.opens
  | opener hi h => exact openStep_opens hi h
  | writer hi h => exact writeStep_opens h
  | reader hi h => exact readStep_opens h
  | loop h => exact loopStep_opens h

/-- The same, seen from the session: what it was before the step. -/
theorem session_before (h : OpensEffect s e t) (hi : t.opens[i]? = some y) :
    s.opens[i]? = some y ∨
      (∃ x, s.opens[i]? = some x ∧ y = closeStep x ∧ Closer s e i) ∨
      (∃ c x, e = .opener i c ∧ s.opens[i]? = some x ∧ Advance s t x y) ∨
      i = s.opens.length ∧ ∃ f, s.loop = .dispatch f ∧ y = newSession s f := by
  cases h with
  | same hopens =>
    rw [hopens] at hi
    exact Or.inl hi
  | close j hopens hclose =>
    rw [hopens] at hi
    rcases @close_eq_set s j with hsame | ⟨x, hj, hset⟩
    · rw [hsame] at hi
      exact Or.inl hi
    · rw [hset, get_set hj] at hi
      split at hi
      · rename_i hij
        cases hi
        subst hij
        exact Or.inr (Or.inl ⟨x, hj, rfl, hclose⟩)
      · exact Or.inl hi
  | advance j c x z he hj hopens hz =>
    rw [hopens, get_set hj] at hi
    split at hi
    · rename_i hij
      cases hi
      subst hij
      exact Or.inr (Or.inr (Or.inl ⟨c, x, he, hj, hz⟩))
    · exact Or.inl hi
  | spawn f hl hopens =>
    rw [hopens] at hi
    rcases get_append hi with hi | ⟨hlen, hy⟩
    · exact Or.inl hi
    · exact Or.inr (Or.inr (Or.inr ⟨hlen, f, hl, hy⟩))

/-- And what it is after the step. -/
theorem session_after (h : OpensEffect s e t) (hi : s.opens[i]? = some x) :
    ∃ y, t.opens[i]? = some y ∧ y.id = x.id ∧ y.link = x.link ∧ (x.stored = true → y.stored = true) := by
  cases h with
  | same hopens => exact ⟨x, by rw [hopens, hi], rfl, rfl, fun h => h⟩
  | close j hopens hclose =>
    rcases @close_eq_set s j with hsame | ⟨z, hj, hset⟩
    · exact ⟨x, by rw [hopens, hsame, hi], rfl, rfl, fun h => h⟩
    · have hget := @get_set s z j (closeStep z) hj i
      rw [← hset, ← hopens] at hget
      by_cases hij : i = j
      · rw [if_pos hij] at hget
        subst hij
        rw [hi] at hj
        cases hj
        exact ⟨_, hget, closeStep_id x, closeStep_link x, by simp⟩
      · rw [if_neg hij] at hget
        exact ⟨x, hget.trans hi, rfl, rfl, fun h => h⟩
  | advance j c z y he hj hopens hy =>
    have hget := @get_set s z j y hj i
    rw [← hopens] at hget
    by_cases hij : i = j
    · rw [if_pos hij] at hget
      subst hij
      rw [hi] at hj
      cases hj
      exact ⟨y, hget, hy.id, hy.link, hy.stored⟩
    · rw [if_neg hij] at hget
      exact ⟨x, hget.trans hi, rfl, rfl, fun h => h⟩
  | spawn f hl hopens => exact ⟨x, by rw [hopens]; exact get_append_left hi, rfl, rfl, fun h => h⟩

/-! ## The writers and the readers -/

/-- The session writer has taken data, or is past that. -/
def WriterPc.busy : WriterPc → Bool
  | .notStarted | .select | .returned => false
  | _ => true

/-- Data has come for the session. -/
def Streams.fed (g : Streams) : Prop := g.writeCh ≠ [] ∨ g.writer.busy = true

def idle : Streams := ⟨.notStarted, .notStarted, []⟩

inductive StreamsEffect (s : State) (e : Event) (t : State) : Prop where
  | same (h : t.streams = s.streams) : StreamsEffect s e t
  | feed (i : Nat) (id : SessionId) (p : Payload) (hl : s.loop = .enqueue i id p)
      (h : t.streams = Function.update s.streams i
        { s.streams i with writeCh := (s.streams i).writeCh ++ [p] }) : StreamsEffect s e t
  | start (i : Nat) (x : Session) (hi : s.opens[i]? = some x) (hx : x.opener = .connSet)
      (ht : ∃ y, t.opens[i]? = some y ∧ y.opener = .sendConnected)
      (h : t.streams = Function.update s.streams i
        { s.streams i with writer := .select, reader := .start }) : StreamsEffect s e t
  | write (i : Nat) (x : Session) (g : Streams) (hi : s.opens[i]? = some x)
      (hstarted : (s.streams i).writer ≠ .notStarted) (hreader : g.reader = (s.streams i).reader)
      (hfed : g.fed → (s.streams i).fed)
      (hclose : ∀ j, g.writer = .close j →
        (s.streams i).writer = .close j ∨ s.sessions x.id = some j)
      (h : t.streams = Function.update s.streams i g) : StreamsEffect s e t
  | read (i : Nat) (x : Session) (g : Streams) (hi : s.opens[i]? = some x)
      (hstarted : (s.streams i).reader ≠ .notStarted)
      (hwriter : g.writer = (s.streams i).writer) (hch : g.writeCh = (s.streams i).writeCh)
      (h : t.streams = Function.update s.streams i g) : StreamsEffect s e t

theorem updated_streams {j : Nat} {g : Streams} (ht : t.streams = Function.update s.streams j g)
    (i : Nat) : t.streams i = s.streams i ∨ j = i ∧ t.streams i = g := by
  rw [ht]
  by_cases hij : i = j
  · exact Or.inr ⟨hij.symm, by rw [hij, Function.update_self]⟩
  · exact Or.inl (Function.update_of_ne hij g s.streams)

theorem openStep_streams {choice : Bool} (hi : s.opens[i]? = some x)
    (h : openStep s i x choice = some t) : StreamsEffect s e t := by
  cases hpc : x.opener with
  | connSet =>
    simp only [openStep, hpc] at h
    cases h
    exact .start i x hi hpc ⟨_, (get_set hi i).trans (if_pos rfl), rfl⟩ rfl
  | sendConnected | sendClose =>
    simp only [openStep, hpc] at h
    obtain ⟨u, hu, rfl⟩ := Option.map_eq_some_iff.mp h
    obtain ⟨ls, rfl⟩ := sendPacket_some hu
    exact .same rfl
  | connected | returned =>
    simp only [openStep, hpc] at h
    cases h
  | _ =>
    simp only [openStep, hpc] at h
    repeat' split at h
    all_goals cases h
    all_goals exact .same rfl

theorem writeStep_streams {a : WriterEvent} (hi : s.opens[i]? = some x)
    (h : writeStep s i x (s.streams i) a = some t) : StreamsEffect s e t := by
  -- the writer goes on from a position in which it has data
  have hbusy : ∀ (pc : WriterPc) {u : State}, (s.streams i).writer.busy = true →
      u.streams = Function.update s.streams i { s.streams i with writer := pc } →
      (∀ j, pc = .close j → (s.streams i).writer = .close j ∨ s.sessions x.id = some j) →
      StreamsEffect s e u := by
    intro pc u hw hu hclose
    refine .write i x { s.streams i with writer := pc } hi (fun hn => ?_) rfl (fun _ => Or.inr hw)
      hclose hu
    rw [hn] at hw
    cases hw
  have hpc : ∀ {pc : WriterPc}, (s.streams i).writer = pc → pc.busy = true →
      (s.streams i).writer.busy = true := by
    intro pc hw hp
    rw [hw]
    exact hp
  cases writeStep_move h with
  | stop hw =>
    refine .write i x { s.streams i with writer := .returned } hi (by simp [hw]) rfl
      (fun hf => ?_) (by simp) rfl
    rcases hf with hf | hf
    · exact Or.inl hf
    · cases hf
  | @take chunk rest hw hch =>
    exact .write i x { s.streams i with writer := .got chunk, writeCh := rest } hi (by simp [hw])
      rfl (fun _ => Or.inl (by simp [hch])) (by simp) rfl
  | connGone hw | deadlineFailed hw | failed hw | gone hw | closed hw | deletes hw =>
    exact hbusy _ (hpc hw rfl) rfl (by simp)
  | connFound hw | wrote hw =>
    refine hbusy _ (hpc hw rfl) rfl ?_
    split <;> simp
  | loaded hw hm =>
    refine hbusy _ (hpc hw rfl) rfl fun k hk => ?_
    cases hk
    exact Or.inr hm
  | closes => exact .same rfl

theorem readStep_streams {a : ReaderEvent} (hi : s.opens[i]? = some x)
    (h : readStep s i x (s.streams i) a = some t) :
    StreamsEffect s e t := by
  have hread : ∀ {pc pc' : ReaderPc} {u : State}, (s.streams i).reader = pc → pc ≠ .notStarted →
      u.streams = Function.update s.streams i { s.streams i with reader := pc' } →
      StreamsEffect s e u := by
    intro pc pc' u hr hpc hu
    exact .read i x { s.streams i with reader := pc' } hi (by rw [hr]; exact hpc) rfl rfl hu
  cases readStep_move h with
  | data hr hu | closeSent hr hu =>
    obtain ⟨ls, rfl⟩ := sendPacket_some hu
    exact hread hr (by simp) rfl
  | read hr | start hr | check hr | closed hr | deletes hr => exact hread hr (by simp) rfl
  | closes => exact .same rfl

theorem dispatch_streams (s : State) (f : Frame SessionId) : (dispatch s f).streams = s.streams := by
  unfold dispatch
  split
  case h_6 => rfl
  all_goals
    split
    all_goals rfl

theorem loopStep_streams {a : LoopEvent} (h : loopStep s a = some t) : StreamsEffect s e t := by
  cases loopStep_move h with
  | dispatch => exact .same (dispatch_streams s _)
  | @queue j id payload hl => exact .feed j id payload hl rfl
  | send _ hu =>
    obtain ⟨ls, rfl⟩ := sendPacket_some hu
    exact .same rfl
  | _ => exact .same rfl

theorem step_streams (h : step s e = some t) : StreamsEffect s e t := by
  cases step_goroutine h with
  | connection h => exact .same h.streams
  | opener hi h => exact openStep_streams hi h
  | writer hi h => exact writeStep_streams hi h
  | reader hi h => exact readStep_streams hi h
  | loop h => exact loopStep_streams h

/-! ## The loop -/

/-- The loop has a data frame for the id, or has found its write queue full. -/
def LoopPc.delivers (id : SessionId) : LoopPc → Prop
  | .dispatch f => f.id = id ∧ (f.cmd = .data ∨ f.cmd = .udpData)
  | .enqueue _ id' _ | .overflow id' | .closing _ id' .overflow | .deleting _ id' .overflow =>
    id' = id
  | _ => False

/-- The loop is inside a `closeSession` that a close frame for the id has started. -/
def LoopPc.answers (id : SessionId) : LoopPc → Prop
  | .closing _ id' .frame | .deleting _ id' .frame | .sendClose id' => id' = id
  | _ => False

/-- The loop has left the connection. -/
def LoopPc.gone : LoopPc → Bool
  | .leaving | .scanning | .returned | .closing _ _ .scan | .deleting _ _ .scan => true
  | _ => false

inductive LoopTurn (s : State) (e : Event) (t : State) : Prop where
  | stays (hl : t.loop = s.loop) (hk : t.link = s.link) : LoopTurn s e t
  | receives (msg : Payload) (f : Frame SessionId) (he : e = .loop (.receive msg))
      (hf : parseFrame msg = some f) (hl : s.loop = .reading) (ht : t.loop = .dispatch f)
      (hk : t.link = s.link) : LoopTurn s e t
  | reads (hl : s.loop.gone = false ∧ ∀ id, ¬s.loop.answers id) (ht : t.loop = .reading)
      (hk : t.link = s.link) : LoopTurn s e t
  | delivers (f : Frame SessionId) (i : Nat) (hl : s.loop = .dispatch f)
      (hf : f.cmd = .data ∨ f.cmd = .udpData) (hm : s.sessions f.id = some i)
      (ht : t.loop = .enqueue i f.id f.payload) (hk : t.link = s.link) : LoopTurn s e t
  | full (i : Nat) (id : SessionId) (p : Payload) (hl : s.loop = .enqueue i id p)
      (ht : t.loop = .overflow id) (hk : t.link = s.link) : LoopTurn s e t
  | finds (f : Frame SessionId) (i : Nat) (hl : s.loop = .dispatch f)
      (ht : t.loop = .closing i f.id .frame) (hk : t.link = s.link) : LoopTurn s e t
  | overflows (id : SessionId) (i : Nat) (hl : s.loop = .overflow id)
      (ht : t.loop = .closing i id .overflow) (hk : t.link = s.link) : LoopTurn s e t
  | closed (i : Nat) (id : SessionId) (who : Caller) (hl : s.loop = .closing i id who)
      (ht : t.loop = .deleting i id who) (hk : t.link = s.link) : LoopTurn s e t
  | deleted (i : Nat) (id : SessionId) (who : Caller) (hl : s.loop = .deleting i id who)
      (ht : t.loop = who.after id) (hk : t.link = s.link) : LoopTurn s e t
  | replies (id : SessionId) (hl : s.loop = .sendClose id) (ht : t.loop = .reading)
      (hk : t.link = s.link)
      (h : Pushes s t s.link ⟨id, .close, []⟩ ∨ (s.links s.link).done = true) : LoopTurn s e t
  | leaves (hl : s.loop.gone = true ∨ s.loop = .reading ∧ (t.links s.link).done = true)
      (ht : t.loop.gone = true) (hk : t.link = s.link) : LoopTurn s e t
  | reconnects (hl : s.loop = .returned) (ht : t.loop = .reading) (hk : t.link = s.link + 1) :
      LoopTurn s e t

theorem dispatch_turn {f : Frame SessionId} (hl : s.loop = .dispatch f) :
    LoopTurn s e (dispatch s f) := by
  have hfrom : s.loop.gone = false ∧ ∀ id, ¬s.loop.answers id := by
    rw [hl]
    exact ⟨rfl, nofun⟩
  unfold dispatch
  split
  case h_1 | h_2 =>
    split
    · exact .reads hfrom rfl rfl
    · exact .reads hfrom rfl rfl
  case h_3 hf =>
    split
    · exact .reads hfrom rfl rfl
    · exact .delivers f _ hl (Or.inl hf) ‹_› rfl rfl
  case h_4 hf =>
    split
    · exact .reads hfrom rfl rfl
    · exact .delivers f _ hl (Or.inr hf) ‹_› rfl rfl
  case h_5 =>
    split
    · exact .reads hfrom rfl rfl
    · exact .finds f _ hl rfl rfl
  case h_6 => exact .reads hfrom rfl rfl

theorem loopStep_turn {a : LoopEvent} (h : loopStep s a = some t) : LoopTurn s (.loop a) t := by
  cases loopStep_move h with
  | stopped hl | readError hl =>
    exact .leaves (Or.inr ⟨hl, by simp [State.closeDone, State.setLink]⟩) rfl rfl
  | short | closes => exact .stays rfl rfl
  | @receive msg f hl hf => exact .receives msg f rfl hf hl rfl rfl
  | dispatch hl => exact dispatch_turn hl
  | queue hl | drop hl | gone hl =>
    exact .reads (by rw [hl]; exact ⟨rfl, by simp [LoopPc.answers]⟩) rfl rfl
  | @full j id payload hl => exact .full j id payload hl rfl rfl
  | @overflow id j hl => exact .overflows id j hl rfl rfl
  | @closed j id who _ hl => exact .closed j id who hl rfl rfl
  | @deletes j id who hl => exact .deleted j id who hl rfl rfl
  | @send id _ _ hl hu =>
    obtain ⟨⟨ls, rfl⟩, ⟨rfl, hpush⟩ | ⟨rfl, -⟩⟩ := sendPacket_pushes hu
    · exact .replies id hl rfl rfl (Or.inl hpush)
    · exact .replies id hl rfl rfl (Or.inr (sendPacket_refused hu))
  | scanBegin hl | visit hl | scanEnd hl => exact .leaves (Or.inl (by rw [hl]; rfl)) rfl rfl
  | reconnect hl => exact .reconnects hl rfl rfl

theorem openStep_loop {choice : Bool} (h : openStep s i x choice = some t) :
    t.loop = s.loop ∧ t.link = s.link ∧ t.cancelled = s.cancelled := by
  cases hpc : x.opener with
  | sendConnected | sendClose =>
    simp only [openStep, hpc] at h
    obtain ⟨u, hu, rfl⟩ := Option.map_eq_some_iff.mp h
    obtain ⟨ls, rfl⟩ := sendPacket_some hu
    exact ⟨rfl, rfl, rfl⟩
  | _ =>
    simp only [openStep, hpc] at h
    repeat' split at h
    all_goals cases h
    all_goals exact ⟨rfl, rfl, rfl⟩

/-- What the other goroutines do leaves the loop where it is. -/
theorem aside_loop (h : AsideEffect s e t) : t.loop = s.loop ∧ t.link = s.link := by
  cases h <;> exact ⟨rfl, rfl⟩

theorem step_turn (h : step s e = some t) : LoopTurn s e t := by
  rcases step_effect h with h | ⟨i, x, choice, -, -, h⟩ | ⟨a, rfl, h⟩
  · exact .stays (aside_loop h).1 (aside_loop h).2
  · exact .stays (openStep_loop h).1 (openStep_loop h).2.1
  · exact loopStep_turn h

/-! ## What lasts -/

theorem commands_mono (h : SendEffect s e t) (n : Nat) {c : Command} (hc : c ∈ commands s n id) :
    c ∈ commands t n id := by
  cases h with
  | quiet hkeys hsent | spawn f hkeys hsent =>
    rw [commands_quiet hsent]
    exact hc
  | connected i x hi hx he hkeys hpush | data i x p hi hr he hkeys hpush
  | close m id' hid hkeys hpush =>
    rw [commands_push hpush]
    exact List.mem_append_left _ hc

theorem commands_pushed {c : Command} (h : Pushes s t n ⟨id, c, []⟩) : c ∈ commands t n id := by
  rw [commands_push h, if_pos ⟨rfl, rfl⟩]
  simp

theorem sendPacket_done {m : Nat} {f : Frame SessionId} {ok : Bool}
    (h : s.sendPacket m f ok = some t) (hd : (s.links n).done = true) :
    (t.links n).done = true := by
  simp only [State.sendPacket] at h
  split at h
  · split at h <;> cases h
    exact setLink_done (fun h => h) hd
  · split at h <;> cases h
    exact hd

theorem openStep_done {choice : Bool} (h : openStep s i x choice = some t)
    (hd : (s.links n).done = true) : (t.links n).done = true := by
  cases hpc : x.opener with
  | sendConnected | sendClose =>
    simp only [openStep, hpc] at h
    obtain ⟨u, hu, rfl⟩ := Option.map_eq_some_iff.mp h
    have hkeep := sendPacket_done hu hd
    exact hkeep
  | _ =>
    simp only [openStep, hpc] at h
    repeat' split at h
    all_goals cases h
    all_goals exact hd

theorem writeStep_done {g : Streams} {a : WriterEvent} (h : writeStep s i x g a = some t)
    (hd : (s.links n).done = true) : (t.links n).done = true := by
  cases writeStep_move h with
  | _ => exact hd

theorem readStep_done {g : Streams} {a : ReaderEvent} (h : readStep s i x g a = some t)
    (hd : (s.links n).done = true) : (t.links n).done = true := by
  cases readStep_move h with
  | data _ hu | closeSent _ hu =>
    have hkeep := sendPacket_done hu hd
    exact hkeep
  | _ => exact hd

theorem loopStep_done {a : LoopEvent} (h : loopStep s a = some t) (hd : (s.links n).done = true) :
    (t.links n).done = true := by
  cases loopStep_move h with
  | @dispatch f =>
    have hsame : (dispatch s f).links = s.links := by
      unfold dispatch
      split
      case h_6 => rfl
      all_goals
        split
        all_goals rfl
    rw [hsame]
    exact hd
  | stopped | readError => exact setLink_done (fun _ => rfl) hd
  | send _ hu =>
    have hkeep := sendPacket_done hu hd
    exact hkeep
  | _ => exact hd

/-- A connection that is done stays done. -/
theorem done_mono (h : step s e = some t) (hd : (s.links n).done = true) :
    (t.links n).done = true := by
  cases step_goroutine h with
  | connection h => exact h.done n hd
  | opener _ h => exact openStep_done h hd
  | writer _ h => exact writeStep_done h hd
  | reader _ h => exact readStep_done h hd
  | loop h => exact loopStep_done h hd

theorem cancelled_mono (h : step s e = some t) (hc : s.cancelled = true) : t.cancelled = true := by
  rcases step_effect h with h | ⟨i, x, choice, -, -, h⟩ | ⟨a, -, h⟩
  · cases h with
    | «local» hkeep => exact hkeep hc
    | close i => exact hc
    | delete hid => exact hc
  · rw [(openStep_loop h).2.2]
    exact hc
  · cases loopStep_effect h <;> exact hc

end SplitProxy.WorkerProcess
