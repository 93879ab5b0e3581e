import SplitProxy.WorkerProcess

/-!
# A close frame against the open goroutine

`closeSession` closes what the map leads to. An open goroutine that stores its
session later is not stopped by it and completes; so a session stays closed
only if no open goroutine of its id completes after the loop has looked the id up
for its last frame.
-/
namespace SplitProxy.WorkerProcess

open Runs

/-- The loop is at work on a close frame of the id. -/
def LoopPc.closes (id : SessionId) : LoopPc → Prop
  | .dispatch f => f.id = id ∧ f.cmd = .close
  | .closing _ id' .frame | .deleting _ id' .frame | .sendClose id' => id' = id
  | _ => False

/-- Once the loop is through with a close frame and the open goroutines of its id have
returned, the id is free and no connection opened for it is open. -/
def StaysClosed (s : State) : Prop :=
  ∀ id, s.lastFrame id = some .close → ¬s.loop.closes id →
    (∀ x ∈ s.opens, x.id = id → x.opener.final = true) →
      s.sessions id = none ∧ ∀ x ∈ s.opens, x.id = id → x.target ≠ .opened

/-- The session has no open connection and is not in the map. -/
def Clean (s : State) (i : Nat) (x : Session) : Prop :=
  x.target ≠ .opened ∧ s.sessions x.id ≠ some i

/-- `closeSession` has found this session for a close frame. -/
def Closing (s : State) (i : Nat) (id : SessionId) : Prop :=
  s.loop = .closing i id .frame ∨ s.loop = .deleting i id .frame

/-- The last frame of the id is a close frame, and the loop has looked the id up for it. -/
def Passed (s : State) (id : SessionId) : Prop :=
  s.lastFrame id = some .close ∧ ∀ f, s.loop = .dispatch f → f.id ≠ id

/-- A close frame finds every open connection whose open goroutine has returned, and
no open goroutine completes after it has been looked up, unless to a session that is
closed already. -/
def ClosesInTime (s : State) : Event → Prop
  | .loop .dispatch => ∀ f, s.loop = .dispatch f → f.cmd = .close →
      ∀ i x, s.opens[i]? = some x → x.id = f.id → x.opener.final = true → x.target = .opened →
        s.sessions f.id = some i
  | .opener i choice => ∀ x, s.opens[i]? = some x → x.opener = .sendConnected → choice = true →
      Passed s x.id → Clean s i x ∨ Closing s i x.id
  | _ => True

variable {s t : State} {e : Event} {x : Session} {i : Nat}

/-- After the last close frame, what a finished open goroutine leaves is clean or being closed. -/
structure Shut (s : State) : Prop where
  inv : Inv s
  taken : ∀ f, s.loop = .dispatch f → s.lastFrame f.id = some f.cmd
  clean : ∀ i x, s.opens[i]? = some x → x.opener.final = true → Passed s x.id →
    Clean s i x ∨ Closing s i x.id

theorem shut_start : Shut start := by
  refine ⟨inv_start, nofun, fun i x h => ?_⟩
  cases h

theorem staysClosed_of_shut (hs : Shut s) : StaysClosed s := by
  intro id hlast hbusy hret
  have hpassed : Passed s id := by
    refine ⟨hlast, fun f hf hid => hbusy ?_⟩
    have hcmd := hs.taken f hf
    rw [hid, hlast] at hcmd
    rw [hf]
    exact ⟨hid, (Option.some.inj hcmd).symm⟩
  have hclean : ∀ i x, s.opens[i]? = some x → x.id = id → Clean s i x := by
    intro i x hi hid
    subst hid
    rcases hs.clean i x hi (hret x (List.mem_of_getElem? hi) rfl) hpassed with h | h | h
    · exact h
    · rw [h] at hbusy
      exact absurd rfl hbusy
    · rw [h] at hbusy
      exact absurd rfl hbusy
  refine ⟨?_, fun x hx hid => ?_⟩
  · cases hm : s.sessions id with
    | none => rfl
    | some i =>
      obtain ⟨x, hi, hid, -⟩ := hs.inv.mapped id i hm
      exact absurd (hid ▸ hm) (hclean i x hi hid).2
  · obtain ⟨i, hi⟩ := List.mem_iff_getElem?.mp hx
    exact (hclean i x hi hid).1

/-! ## One step -/

/-- What was clean stays clean when the map only loses entries. -/
theorem Clean.mono (h : Clean s i x) (hm : ∀ j, t.sessions x.id = some j → s.sessions x.id = some j) :
    Clean t i x := ⟨h.1, fun h' => h.2 (hm i h')⟩

theorem Shut.close (hs : Shut s) (j : Nat) : Shut (s.close j) := by
  refine ⟨hs.inv.close j, hs.taken, fun i x hi hf hp => ?_⟩
  rcases @close_eq_set s j with h | ⟨y, hy, h⟩
  · rw [h] at hi
    exact hs.clean i x hi hf hp
  · rw [h, get_set hy] at hi
    split at hi
    · rename_i hij
      cases hi
      subst hij
      rw [closeStep_opener] at hf
      rw [closeStep_id] at hp ⊢
      rcases hs.clean i y hy hf hp with hc | hc
      · exact Or.inl ⟨fun ht => hc.1 (closeStep_target ht), by rw [closeStep_id]; exact hc.2⟩
      · exact Or.inr hc
    · exact hs.clean i x hi hf hp

theorem Shut.delete (hs : Shut s) (id : SessionId) : Shut (s.delete id) := by
  refine ⟨hs.inv.delete id, hs.taken, fun i x hi hf hp => ?_⟩
  rcases hs.clean i x hi hf hp with h | h
  · exact Or.inl (h.mono fun j hj => (delete_some hj).2)
  · exact Or.inr h

/-- A session in the hands of its open goroutine may change freely. -/
theorem Shut.set {y : Session} (hs : Shut s) (hi : s.opens[i]? = some x) (hinv : Inv (s.set i y))
    (hy : y.opener.final = true → Passed s y.id → Clean s i y ∨ Closing s i y.id) :
    Shut (s.set i y) := by
  refine ⟨hinv, hs.taken, fun j z hz hf hp => ?_⟩
  rw [get_set hi] at hz
  split at hz
  · rename_i hj
    cases hz
    subst hj
    exact hy hf hp
  · exact hs.clean j z hz hf hp

theorem Shut.local (hs : Shut s) (c : Bool) (ls : Nat → Link) (ss : Nat → Streams) :
    Shut { s with cancelled := c, links := ls, streams := ss } :=
  ⟨hs.inv.local c ls ss, hs.taken, hs.clean⟩

theorem shut_aside (hs : Shut s) (h : AsideEffect s e t) : Shut t := by
  cases h with
  | «local» hc => exact hs.local _ _ _
  | close i => exact hs.close i
  | delete hid => exact (hs.delete _).local _ _ _

theorem shut_opener {choice : Bool} (hs : Shut s) (hi : s.opens[i]? = some x)
    (hC : ClosesInTime s (.opener i choice)) (h : OpenEffect s i x choice t) : Shut t := by
  have ht := inv_opener hs.inv hi h
  have hdeleted : (s.delete x.id).sessions x.id ≠ some i := fun hm => (delete_some hm).1 rfl
  cases h with
  | run hy hid hlink hstored hstage hrun hdel =>
    refine (hs.set hi ⟨ht.sound, ht.mapped, ht.unmapped, ht.closing, ht.deleting⟩ ?_).local _ _ _
    intro hf
    rw [hrun] at hf
    cases hf
  | store hnone hy =>
    refine ⟨ht, hs.taken, fun j z hz hf hp => ?_⟩
    rw [show _ = _ from get_set hi j] at hz
    split at hz
    · cases hz
      cases hf
    · rename_i hj
      rcases hs.clean j z hz hf hp with h | h
      · refine Or.inl ⟨h.1, fun hm => ?_⟩
        by_cases hid : z.id = x.id
        · simp only [hid, Function.update_self, Option.some.injEq] at hm
          exact hj hm.symm
        · simp only [Function.update_of_ne hid] at hm
          exact h.2 hm
      · exact Or.inr h
  | fail hx hy => exact (hs.delete x.id).set hi ht nofun
  | close => exact hs.close i
  | leave hx hy =>
    refine hs.set hi ht fun _ _ => Or.inl ⟨(hs.inv.sound i x hi).unstored hx |>.2, fun hm => ?_⟩
    obtain ⟨z, hz, -, hst⟩ := hs.inv.mapped _ _ hm
    rw [hi] at hz
    cases hz
    rw [hx] at hst
    cases hst
  | unopened hx hdel htarget hy =>
    refine (hs.set hi ⟨ht.sound, ht.mapped, ht.unmapped, ht.closing, ht.deleting⟩ ?_).local _ _ _
    exact fun _ _ => Or.inl ⟨htarget, hs.inv.unmapped i x hi hdel⟩
  | abandon hx hdone htarget hy =>
    exact (hs.delete x.id).set hi ht fun _ _ => Or.inl ⟨htarget, hdeleted⟩
  | connected hx hchoice hy =>
    refine (hs.set hi ⟨ht.sound, ht.mapped, ht.unmapped, ht.closing, ht.deleting⟩ ?_).local _ _ _
    exact fun _ hp => hC x hi hx hchoice hp

/-- Away from a close frame the loop leaves what is clean as it is. -/
theorem Shut.loop {pc : LoopPc} {owed : SessionId → Bool} {n : Nat} (hs : Shut s)
    (ht : Inv { s with loop := pc, owed := owed, link := n })
    (hd : ∀ f, s.loop = .dispatch f → f.cmd ≠ .close) (hpc : ∀ f, pc ≠ .dispatch f)
    (hfree : ∀ i id, ¬Closing s i id) : Shut { s with loop := pc, owed := owed, link := n } := by
  refine ⟨ht, fun f hf => absurd hf (hpc f), fun i x hi hf hp => Or.inl ?_⟩
  have hp' : Passed s x.id := by
    refine ⟨hp.1, fun f hf' hid => hd f hf' ?_⟩
    have hcmd := hs.taken f hf'
    rw [hid, hp.1] at hcmd
    exact (Option.some.inj hcmd).symm
  rcases hs.clean i x hi hf hp' with h | h
  · exact h
  · exact absurd h (hfree i x.id)

theorem not_closing (h : s.loop.holds = none) (i : Nat) (id : SessionId) : ¬Closing s i id := by
  rintro (h' | h') <;> rw [h'] at h <;> cases h

/-- A frame that has been taken up is dispatched next. -/
theorem dispatching {a : LoopEvent} {f : Frame SessionId} (hl : s.loop = .dispatch f)
    (h : loopStep s a = some t) : a = .dispatch := by
  cases a <;> simp [loopStep, hl] at h
  rfl

theorem shut_loop {a : LoopEvent} (hs : Shut s) (hC : ClosesInTime s (.loop a))
    (h : loopStep s a = some t) : Shut t := by
  have heffect := loopStep_effect h
  have ht := inv_loop hs.inv heffect
  -- a lookup for a close frame that finds nothing to close
  have hlookup : ∀ {f : Frame SessionId}, s.loop = .dispatch f → f.cmd = .close → ∀ i x,
      s.opens[i]? = some x → x.opener.final = true → x.id = f.id →
        s.sessions f.id = some i ∨ Clean s i x := by
    intro f hl hf i x hi hfin hid
    rw [dispatching hl h] at hC
    by_cases hopen : x.target = .opened
    · exact Or.inl (hC f hl hf i x hi hid hfin hopen)
    · by_cases hm : s.sessions x.id = some i
      · exact Or.inl (hid ▸ hm)
      · exact Or.inr ⟨hopen, hm⟩
  have hother : ∀ {f : Frame SessionId} {pc : LoopPc}, s.loop = .dispatch f → ∀ {i x},
      s.opens[i]? = some x → x.opener.final = true → x.id ≠ f.id →
      Passed { s with loop := pc } x.id → Clean s i x := by
    intro f pc hl i x hi hfin hid hp
    have hp' : Passed s x.id := by
      refine ⟨hp.1, fun g hg hgid => ?_⟩
      rw [hl] at hg
      cases hg
      exact hid hgid.symm
    rcases hs.clean i x hi hfin hp' with hc | hc | hc
    · exact hc
    · rw [hl] at hc
      cases hc
    · rw [hl] at hc
      cases hc
  cases heffect with
  | idle hd hfrom hto hnext =>
    rename_i pc ls ss
    have hquiet : Shut { s with loop := pc, owed := s.owed, link := s.link } :=
      hs.loop ⟨ht.sound, ht.mapped, ht.unmapped, ht.closing, ht.deleting⟩ hd hnext.1
        (not_closing hfrom.2)
    exact hquiet.local _ _ _
  | receive hl =>
    refine ⟨ht, fun f hf => ?_, fun i x hi hf hp => ?_⟩
    · cases hf
      exact Function.update_self _ _ _
    · rename_i f
      have hid : x.id ≠ f.id := fun hid => hp.2 f rfl hid.symm
      have hp' : Passed s x.id :=
        ⟨(Function.update_of_ne hid _ _).symm.trans hp.1, fun g hg => by rw [hl] at hg; cases hg⟩
      rcases hs.clean i x hi hf hp' with hc | hc
      · exact Or.inl hc
      · exact absurd hc (not_closing (by rw [hl]; rfl) i x.id)
  | spawn hl hf =>
    rename_i f
    refine ⟨ht, (by simp), fun i x hi hfin hp => ?_⟩
    rcases get_append hi with hi | ⟨-, rfl⟩
    · by_cases hid : x.id = f.id
      · have hcmd := hs.taken f hl
        rw [← hid, hp.1] at hcmd
        exact absurd (Option.some.inj hcmd).symm hf
      · exact Or.inl (hother hl hi hfin hid hp)
    · cases hfin
  | missing hl hf hnone =>
    rename_i f
    refine ⟨ht, (by simp), fun i x hi hfin hp => Or.inl ?_⟩
    by_cases hid : x.id = f.id
    · rcases hlookup hl hf i x hi hfin hid with hm | hc
      · rw [hnone] at hm
        cases hm
      · exact hc
    · exact hother hl hi hfin hid hp
  | found hl hf hm =>
    rename_i f j
    refine ⟨ht, (by simp), fun i x hi hfin hp => ?_⟩
    by_cases hid : x.id = f.id
    · rcases hlookup hl hf i x hi hfin hid with hm' | hc
      · rw [hm] at hm'
        cases hm'
        exact Or.inr (Or.inl (by rw [hid]))
      · exact Or.inl hc
    · exact Or.inl (hother hl hi hfin hid hp)
  | overflow hl hm =>
    exact hs.loop ht (by simp [hl]) (by simp) (not_closing (by rw [hl]; rfl))
  | close i => exact hs.close i
  | closed hl hi hx =>
    refine ⟨ht, (by simp), fun i x hi hfin hp => ?_⟩
    rcases hs.clean i x hi hfin ⟨hp.1, fun f hf => by rw [hl] at hf; cases hf⟩ with hc | hc | hc
    · exact Or.inl hc
    · rw [hl] at hc
      cases hc
      exact Or.inr (Or.inr rfl)
    · rw [hl] at hc
      cases hc
  | deleted hl =>
    rename_i i id who
    have hdel := hs.delete id
    have hl' : (s.delete id).loop = .deleting i id who := hl
    refine ⟨ht, fun f hf => ?_, fun j x hj hfin hp => Or.inl ?_⟩
    · cases who <;> cases hf
    have hj' : s.opens[j]? = some x := hj
    rcases hdel.clean j x hj hfin ⟨hp.1, fun f hf => by rw [hl'] at hf; cases hf⟩ with hc | hc | hc
    · exact hc
    · rw [hl'] at hc
      cases hc
    · rw [hl'] at hc
      cases hc
      obtain ⟨y, hy, -, hclosed⟩ := hs.inv.deleting _ _ _ hl
      rw [hj'] at hy
      cases hy
      have hpc : ∀ pc, pc.final = false → x.opener ≠ pc := by
        rintro pc hpc rfl
        rw [hpc] at hfin
        cases hfin
      exact ⟨(hs.inv.sound i x hj').closed_target hclosed (hpc _ rfl) (hpc _ rfl),
        fun hm => (delete_some hm).1 rfl⟩
  | scanBegin hl => exact hs.loop ht (by simp [hl]) (by simp) (not_closing (by rw [hl]; rfl))
  | visit hl hm =>
    exact hs.loop ht (by simp [hl]) (by simp) (not_closing (by rw [hl]; rfl))
  | scanEnd hl howed => exact hs.loop ht (by simp [hl]) (by simp) (not_closing (by rw [hl]; rfl))
  | reconnect hl => exact hs.loop ht (by simp [hl]) (by simp) (not_closing (by rw [hl]; rfl))

theorem shut_step (hs : Shut s) (hC : ClosesInTime s e) (h : step s e = some t) : Shut t := by
  rcases step_effect h with h | ⟨i, x, choice, rfl, hi, h⟩ | ⟨a, rfl, h⟩
  · exact shut_aside hs h
  · exact shut_opener hs hi hC (openStep_effect (hs.inv.sound i x hi) h)
  · exact shut_loop hs hC h

/-- In a run in which every close frame comes in time, a closed session stays closed. -/
theorem staysClosed_of_closesInTime (es : List Event) (h : Meets step ClosesInTime start es) :
    Always step StaysClosed start es :=
  always_of_invariant (fun _ _ _ => shut_step) (fun _ => staysClosed_of_shut) shut_start h

/-! ## A close frame in time, and one that is not -/

instance (id : SessionId) : Decidable (Passed s id) := inferInstanceAs (Decidable (_ ∧ _))
instance : Decidable (Clean s i x) := inferInstanceAs (Decidable (_ ∧ _))
instance (id : SessionId) : Decidable (Closing s i id) := inferInstanceAs (Decidable (_ ∨ _))

instance decidableClosesInTime (s : State) : (e : Event) → Decidable (ClosesInTime s e)
  | .loop .dispatch => by unfold ClosesInTime; infer_instance
  | .opener _ _ => by unfold ClosesInTime; infer_instance
  | .loop (.receive _) | .loop .readError | .loop .queue | .loop .drop | .loop .full
  | .loop .next | .loop (.send _) | .loop .scanBegin | .loop (.visit _) | .loop .scanEnd
  | .loop .reconnect | .cancel | .watch | .brokerWrite _ _ | .brokerPing _ | .brokerStop _
  | .writer _ _ | .reader _ _ => isTrue trivial

def sampleId : SessionId := ⟨List.replicate 36 0x61, rfl⟩

def message (cmd : UInt8) (payload : Payload) : Payload := sampleId.1 ++ cmd :: payload

/-- A session is opened, becomes connected, and is closed by a frame. -/
def orderlyClose : List Event :=
  [.loop (.receive (message 1 [])), .loop .dispatch, .opener 0 true, .opener 0 true, .opener 0 true,
    .opener 0 true, .opener 0 true, .opener 0 true, .opener 0 true, .opener 0 true, .opener 0 true,
    .loop (.receive (message 3 [])), .loop .dispatch, .loop .next, .loop .next, .loop .next,
    .loop .next, .loop .next, .loop (.send true)]

theorem staysClosed_orderlyClose : Meets step ClosesInTime start orderlyClose ∧
    (run step start orderlyClose).isSome = true ∧ Always step StaysClosed start orderlyClose := by
  have h : Meets step ClosesInTime start orderlyClose := by decide +kernel
  exact ⟨h, by decide +kernel, staysClosed_of_closesInTime orderlyClose h⟩

/-- The close frame is handled before the open goroutine has stored its session. -/
def overtaken : List Event :=
  [.loop (.receive (message 1 [])), .loop .dispatch, .loop (.receive (message 3 [])),
    .loop .dispatch, .opener 0 true, .opener 0 true, .opener 0 true, .opener 0 true,
    .opener 0 true, .opener 0 true, .opener 0 true, .opener 0 true, .opener 0 true]

theorem overtaken_stays_open : ¬∀ es, Always step StaysClosed start es := by
  intro h
  have hsome : (run step start overtaken).isSome = true := by decide +kernel
  obtain ⟨t, ht⟩ := Option.isSome_iff_exists.mp hsome
  have hloop : t.loop = .reading := run_component ht State.loop (by decide +kernel)
  have hlast : t.lastFrame sampleId = some .close :=
    run_component ht (fun s => s.lastFrame sampleId) (by decide +kernel)
  have hmapped : t.sessions sampleId = some 0 :=
    run_component ht (fun s => s.sessions sampleId) (by decide +kernel)
  have hopeners : t.opens.map Session.opener = [.connected] :=
    run_component ht (fun s => s.opens.map Session.opener) (by decide +kernel)
  have hret : ∀ x ∈ t.opens, x.id = sampleId → x.opener.final = true := by
    intro x hx _
    have hx' := List.mem_map_of_mem (f := Session.opener) hx
    rw [hopeners, List.mem_singleton] at hx'
    rw [hx']
    rfl
  have hstays := h overtaken overtaken [] t (List.append_nil _).symm ht sampleId hlast
    (by rw [hloop]; exact id) hret
  rw [hmapped] at hstays
  cases hstays.1

end SplitProxy.WorkerProcess
