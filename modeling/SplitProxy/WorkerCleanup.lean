import SplitProxy.WorkerProcess

/-!
# The sessions of a lost broker connection

When the loop leaves, a scan closes what the map holds. An open goroutine the scan
does not see is only stopped by `sendPacket` on the closed `done`, whose select may
just as well take the send case.
-/
namespace SplitProxy.WorkerProcess

open Runs

/-- The session is closed, its connection is closed, and it is not in the map. -/
def Gone (s : State) (i : Nat) (x : Session) : Prop :=
  isDone x = true ∧ x.target ≠ .opened ∧ s.sessions x.id ≠ some i

/-- `handleBrokerConnection` has returned for this broker connection. -/
def Left (s : State) (n : Nat) : Prop := n < s.link ∨ n = s.link ∧ s.loop = .returned

/-- Once a connection is left and its open goroutines have returned, nothing is left of
the sessions they put into the map. -/
def LeavesNothing (s : State) : Prop :=
  ∀ n, Left s n → (∀ x ∈ s.opens, x.link = n → x.opener.final = true) →
    ∀ i x, s.opens[i]? = some x → x.link = n → x.stored = true → Gone s i x

/-- The scan at the end of the connection has the id still before it. -/
def Ahead (s : State) (id : SessionId) : Prop :=
  s.loop ≠ .returned ∧ (s.loop.scanned = true → s.owed id = true)

/-- The loop will close the session, or is about to. -/
def Covered (s : State) (i : Nat) (x : Session) : Prop :=
  x.link = s.link ∧ (s.sessions x.id = some i ∧ Ahead s x.id ∨ s.loop.holds = some i)

/-- An open goroutine that returns after its dial leaves a session that is gone or
that the loop will close. -/
def ReturnsClosed (s : State) (e : Event) : Prop :=
  ∀ i x, s.opens[i]? = some x →
    (e = .opener i true → x.opener = .sendConnected → Gone s i x ∨ Covered s i x) ∧
    (e = .opener i true ∨ e = .opener i false →
      x.opener = .sendClose ∨ x.opener = .failed ∧ s.cancelled = true →
        isDone x = true ∨ Covered s i x)

/-- What is deleted from the map under an open goroutine that has returned is closed,
or in the hands of the loop. -/
def DeletesClosed (s : State) (e : Event) : Prop :=
  ∀ i x, s.opens[i]? = some x → deletes s e = some x.id → s.sessions x.id = some i →
    x.opener.final = true →
      isDone x = true ∧ x.target ≠ .opened ∨ x.link = s.link ∧ s.loop.holds = some i

def SeesClosed (s : State) (e : Event) : Prop := ReturnsClosed s e ∧ DeletesClosed s e

variable {s t : State} {e : Event} {x : Session} {i : Nat}

/-- A finished open goroutine leaves a session that is gone or will be closed. -/
structure Accounted (s : State) : Prop where
  inv : Inv s
  left : ∀ i x, s.opens[i]? = some x → x.stored = true → x.opener.final = true →
    Gone s i x ∨ Covered s i x

theorem accounted_start : Accounted start := by
  refine ⟨inv_start, fun i x h => ?_⟩
  cases h

theorem leavesNothing_of_accounted (hs : Accounted s) : LeavesNothing s := by
  intro n hn hret i x hi hlink hstored
  rcases hs.left i x hi hstored (hret x (List.mem_of_getElem? hi) hlink) with h | ⟨hl, h⟩
  · exact h
  · have hloop : s.loop = .returned := by
      rcases hn with hn | hn
      · omega
      · exact hn.2
    rcases h with h | h
    · exact absurd hloop h.2.1
    · rw [hloop] at h
      cases h

/-! ## One step -/

theorem Gone.mono (h : Gone s i x) (hm : ∀ j, t.sessions x.id = some j → s.sessions x.id = some j) :
    Gone t i x := ⟨h.1, h.2.1, fun h' => h.2.2 (hm i h')⟩

theorem Accounted.local (hs : Accounted s) (c : Bool) (ls : Nat → Link) (ss : Nat → Streams) :
    Accounted { s with cancelled := c, links := ls, streams := ss } :=
  ⟨hs.inv.local c ls ss, hs.left⟩

theorem Accounted.close (hs : Accounted s) (j : Nat) : Accounted (s.close j) := by
  refine ⟨hs.inv.close j, fun i x hi hst hf => ?_⟩
  rcases @close_eq_set s j with h | ⟨y, hy, h⟩
  · rw [h] at hi
    exact hs.left i x hi hst hf
  · rw [h, get_set hy] at hi
    split at hi
    · rename_i hij
      cases hi
      subst hij
      rw [closeStep_opener] at hf
      rw [closeStep_stored] at hst
      rcases hs.left i y hy hst hf with hc | hc
      · refine Or.inl ⟨isDone_closeStep hc.1, fun ht => hc.2.1 (closeStep_target ht), ?_⟩
        rw [closeStep_id]
        exact hc.2.2
      · refine Or.inr ⟨by rw [closeStep_link]; exact hc.1, ?_⟩
        rw [closeStep_id]
        exact hc.2
    · exact hs.left i x hi hst hf

/-- A session the loop will close is deleted from the map only when closed, or held. -/
theorem Accounted.delete {id : SessionId} (hs : Accounted s)
    (hC : ∀ i x, s.opens[i]? = some x → id = x.id → s.sessions x.id = some i →
      x.opener.final = true →
        isDone x = true ∧ x.target ≠ .opened ∨ x.link = s.link ∧ s.loop.holds = some i) :
    Accounted (s.delete id) := by
  refine ⟨hs.inv.delete id, fun i x hi hst hf => ?_⟩
  rcases hs.left i x hi hst hf with h | ⟨hlink, ⟨hm, ha⟩ | hh⟩
  · exact Or.inl (h.mono fun j hj => (delete_some hj).2)
  · by_cases hid : x.id = id
    · rcases hC i x hi hid.symm hm hf with h | h
      · exact Or.inl ⟨h.1, h.2, fun h' => (delete_some h').1 hid⟩
      · exact Or.inr ⟨hlink, Or.inr h.2⟩
    · refine Or.inr ⟨hlink, Or.inl ⟨?_, ha.1, fun hsc => ?_⟩⟩
      · exact (Function.update_of_ne hid _ _).trans hm
      · exact (Function.update_of_ne hid _ _).trans (ha.2 hsc)
  · exact Or.inr ⟨hlink, Or.inr hh⟩

theorem Accounted.set {y : Session} (hs : Accounted s) (hi : s.opens[i]? = some x)
    (hinv : Inv (s.set i y))
    (hy : y.stored = true → y.opener.final = true → Gone s i y ∨ Covered s i y) :
    Accounted (s.set i y) := by
  refine ⟨hinv, fun j z hz hst hf => ?_⟩
  rw [get_set hi] at hz
  split at hz
  · rename_i hj
    cases hz
    subst hj
    exact hy hst hf
  · exact hs.left j z hz hst hf

theorem accounted_aside (hs : Accounted s) (hC : SeesClosed s e) (h : AsideEffect s e t) :
    Accounted t := by
  cases h with
  | «local» hc => exact hs.local _ _ _
  | close i => exact hs.close i
  | delete hid =>
    refine (hs.delete fun i x hi hx => ?_).local _ _ _
    exact hC.2 i x hi (by rw [hid, hx])

theorem accounted_opener {choice : Bool} (hs : Accounted s) (hi : s.opens[i]? = some x)
    (hC : SeesClosed s (.opener i choice)) (h : OpenEffect s i x choice t) : Accounted t := by
  have ht := inv_opener hs.inv hi h
  have hdelete : x.opener.deletes = true → Accounted (s.delete x.id) := by
    intro hx
    refine hs.delete fun j y hj hid => hC.2 j y hj ?_
    simp [deletes, hi, hx, hid]
  have hdeleted : (s.delete x.id).sessions x.id ≠ some i := fun hm => (delete_some hm).1 rfl
  cases h with
  | run hy hid hlink hstored hstage hrun hdel =>
    refine (hs.set hi ⟨ht.sound, ht.mapped, ht.unmapped, ht.closing, ht.deleting⟩ ?_).local _ _ _
    intro _ hf
    rw [hrun] at hf
    cases hf
  | store hnone hy =>
    refine ⟨ht, fun j z hz hst hf => ?_⟩
    rw [show _ = _ from get_set hi j] at hz
    split at hz
    · cases hz
      cases hf
    · rename_i hj
      rcases hs.left j z hz hst hf with h | ⟨hlink, ⟨hm, ha⟩ | hh⟩
      · refine Or.inl ⟨h.1, h.2.1, fun hm => ?_⟩
        by_cases hid : z.id = x.id
        · simp only [hid, Function.update_self, Option.some.injEq] at hm
          exact hj hm.symm
        · simp only [Function.update_of_ne hid] at hm
          exact h.2.2 hm
      · refine Or.inr ⟨hlink, Or.inl ⟨?_, ha⟩⟩
        have hid : z.id ≠ x.id := by
          intro hid
          rw [hid, hnone] at hm
          cases hm
        exact (Function.update_of_ne hid _ _).trans hm
      · exact Or.inr ⟨hlink, Or.inr hh⟩
  | fail hx hy => exact (hdelete hx).set hi ht (by simp [OpenPc.final])
  | close => exact hs.close i
  | leave hx hy =>
    refine hs.set hi ht fun hst _ => ?_
    rw [show x.stored = true from hst] at hx
    cases hx
  | unopened hx hdel htarget hy =>
    refine (hs.set hi ⟨ht.sound, ht.mapped, ht.unmapped, ht.closing, ht.deleting⟩ ?_).local _ _ _
    intro _ _
    rcases (hC.1 i x hi).2 (by cases choice <;> simp) hx with h | h
    · exact Or.inl ⟨h, htarget, hs.inv.unmapped i x hi hdel⟩
    · exact Or.inr h
  | abandon hx hdone htarget hy =>
    exact (hdelete hx).set hi ht fun _ _ => Or.inl ⟨hdone, htarget, hdeleted⟩
  | connected hx hchoice hy =>
    refine (hs.set hi ⟨ht.sound, ht.mapped, ht.unmapped, ht.closing, ht.deleting⟩ ?_).local _ _ _
    subst hchoice
    exact fun _ _ => (hC.1 i x hi).1 rfl hx

theorem holds_deleting {a : LoopEvent} {id : SessionId} {who : Caller}
    (hl : s.loop = .deleting i id who) (h : loopStep s a = some t) :
    deletes s (.loop a) = some id := by
  cases a <;> simp [loopStep, hl] at h
  simp [deletes, hl]

/-- Between the end of one piece of work and the next the loop holds no session. -/
theorem Accounted.move {pc : LoopPc} {owed : SessionId → Bool} (hs : Accounted s)
    (ht : Inv { s with loop := pc, owed := owed }) (hfrom : s.loop.holds = none)
    (hahead : ∀ i x, s.opens[i]? = some x → s.sessions x.id = some i → Ahead s x.id →
      Ahead { s with loop := pc, owed := owed } x.id ∨ pc.holds = some i) :
    Accounted { s with loop := pc, owed := owed } := by
  refine ⟨ht, fun i x hi hst hf => ?_⟩
  rcases hs.left i x hi hst hf with h | ⟨hlink, ⟨hm, ha⟩ | hh⟩
  · exact Or.inl h
  · rcases hahead i x hi hm ha with h | h
    · exact Or.inr ⟨hlink, Or.inl ⟨hm, h⟩⟩
    · exact Or.inr ⟨hlink, Or.inr h⟩
  · rw [hfrom] at hh
    cases hh

/-- Before the scan every id is still ahead. -/
theorem ahead_unscanned {pc : LoopPc} {owed : SessionId → Bool} (h : pc.scanned = false)
    (id : SessionId) : Ahead { s with loop := pc, owed := owed } id := by
  refine ⟨fun hl => ?_, fun hsc => ?_⟩
  · rw [show pc = .returned from hl] at h
    cases h
  · rw [show pc.scanned = true from hsc] at h
    cases h

theorem accounted_loop {a : LoopEvent} (hs : Accounted s) (hC : SeesClosed s (.loop a))
    (h : loopStep s a = some t) : Accounted t := by
  have heffect := loopStep_effect h
  have ht := inv_loop hs.inv heffect
  cases heffect with
  | @idle pc ls ss hd hfrom hto hnext =>
    have hquiet : Accounted { s with loop := pc, owed := s.owed } :=
      hs.move ⟨ht.sound, ht.mapped, ht.unmapped, ht.closing, ht.deleting⟩ hfrom.2
        fun _ x _ _ _ => Or.inl (ahead_unscanned hto.1 x.id)
    exact hquiet.local _ _ _
  | receive hl =>
    have hmove := hs.move ⟨ht.sound, ht.mapped, ht.unmapped, ht.closing, ht.deleting⟩
      (by rw [hl]; rfl) fun _ x _ _ _ => Or.inl (@ahead_unscanned s _ s.owed rfl x.id)
    exact ⟨ht, hmove.left⟩
  | spawn hl hf =>
    refine ⟨ht, fun i x hi hst hfin => ?_⟩
    rcases get_append hi with hi | ⟨-, rfl⟩
    · rcases hs.left i x hi hst hfin with h | ⟨hlink, ⟨hm, ha⟩ | hh⟩
      · exact Or.inl h
      · exact Or.inr ⟨hlink, Or.inl ⟨hm, (by simp), (by simp [LoopPc.scanned])⟩⟩
      · rw [hl] at hh
        cases hh
    · cases hfin
  | missing hl hf hnone =>
    exact hs.move ht (by rw [hl]; rfl) fun _ x _ _ _ => Or.inl (ahead_unscanned rfl x.id)
  | found hl hf hm =>
    exact hs.move ht (by rw [hl]; rfl) fun _ x _ _ _ => Or.inl (ahead_unscanned rfl x.id)
  | overflow hl hm =>
    exact hs.move ht (by rw [hl]; rfl) fun _ x _ _ _ => Or.inl (ahead_unscanned rfl x.id)
  | close i => exact hs.close i
  | @closed j id who y hl hi hx =>
    refine ⟨ht, fun i x hi hst hfin => ?_⟩
    rcases hs.left i x hi hst hfin with h | ⟨hlink, ⟨hm, ha⟩ | hh⟩
    · exact Or.inl h
    · refine Or.inr ⟨hlink, Or.inl ⟨hm, (by simp), fun hsc => ha.2 ?_⟩⟩
      rw [hl]
      cases who <;> exact hsc
    · rw [hl] at hh
      exact Or.inr ⟨hlink, Or.inr hh⟩
  | @deleted j id who hl =>
    have hdel : Accounted (s.delete id) :=
      hs.delete fun i x hi hid => hC.2 i x hi (by rw [holds_deleting hl h, hid])
    refine ⟨ht, fun i x hi hst hfin => ?_⟩
    have hi' : s.opens[i]? = some x := hi
    rcases hdel.left i x hi hst hfin with hg | ⟨hlink, ⟨hm, ha⟩ | hh⟩
    · exact Or.inl hg
    · refine Or.inr ⟨hlink, Or.inl ⟨hm, ?_, fun hsc => ha.2 ?_⟩⟩
      · cases who <;> simp [Caller.after]
      · have hl' : (s.delete id).loop = .deleting j id who := hl
        rw [hl']
        cases who
        · cases hsc
        · cases hsc
        · rfl
    · have hl' : (s.delete id).loop = .deleting j id who := hl
      rw [hl'] at hh
      cases hh
      obtain ⟨y, hy, hid, hclosed⟩ := hs.inv.deleting _ _ _ hl
      rw [hi'] at hy
      cases hy
      subst hid
      have hpc : ∀ pc, pc.final = false → x.opener ≠ pc := by
        rintro pc hpc rfl
        rw [hpc] at hfin
        cases hfin
      refine Or.inl ⟨by simp [isDone, hclosed], ?_, fun hm => (delete_some hm).1 rfl⟩
      exact (hs.inv.sound _ x hi').closed_target hclosed (hpc _ rfl) (hpc _ rfl)
  | scanBegin hl =>
    refine hs.move ht (by rw [hl]; rfl) fun _ x _ hm _ => Or.inl ⟨(by simp), fun _ => ?_⟩
    simp [hm]
  | @visit id j hl hm =>
    refine hs.move ht (by rw [hl]; rfl) fun i x _ hm' ha => ?_
    by_cases hid : x.id = id
    · rw [hid, hm] at hm'
      exact Or.inr hm'
    · exact Or.inl ⟨(by simp), fun _ =>
        (Function.update_of_ne hid _ _).trans (ha.2 (by rw [hl]; rfl))⟩
  | scanEnd hl howed =>
    refine hs.move ht (by rw [hl]; rfl) fun i x hi _ ha => ?_
    have hdue := ha.2 (by rw [hl]; rfl)
    rw [howed x (List.mem_of_getElem? hi)] at hdue
    cases hdue
  | reconnect hl =>
    refine ⟨ht, fun i x hi hst hfin => ?_⟩
    rcases hs.left i x hi hst hfin with hg | ⟨hlink, ⟨hm, ha⟩ | hh⟩
    · exact Or.inl hg
    · exact absurd hl ha.1
    · rw [hl] at hh
      cases hh

theorem accounted_step (hs : Accounted s) (hC : SeesClosed s e) (h : step s e = some t) :
    Accounted t := by
  rcases step_effect h with h | ⟨i, x, choice, rfl, hi, h⟩ | ⟨a, rfl, h⟩
  · exact accounted_aside hs hC h
  · exact accounted_opener hs hi hC (openStep_effect (hs.inv.sound i x hi) h)
  · exact accounted_loop hs hC h

/-- In a run in which no open goroutine escapes the scan, a lost connection leaves nothing. -/
theorem leavesNothing_of_seesClosed (es : List Event) (h : Meets step SeesClosed start es) :
    Always step LeavesNothing start es :=
  always_of_invariant (fun _ _ _ => accounted_step) (fun _ => leavesNothing_of_accounted)
    accounted_start h

/-! ## A scan that finds the session, and one that comes too early -/

instance : Decidable (Gone s i x) := inferInstanceAs (Decidable (_ ∧ _ ∧ _))
instance (id : SessionId) : Decidable (Ahead s id) := inferInstanceAs (Decidable (_ ∧ (_ → _)))
instance : Decidable (Covered s i x) := inferInstanceAs (Decidable (_ ∧ (_ ∧ _ ∨ _)))
instance : Decidable (ReturnsClosed s e) :=
  inferInstanceAs (Decidable (∀ i x, s.opens[i]? = some x → (_ → _ → _) ∧ (_ → _ → _)))
instance : Decidable (DeletesClosed s e) :=
  inferInstanceAs (Decidable (∀ i x, s.opens[i]? = some x → (_ → _ → _ → _)))
instance : Decidable (SeesClosed s e) := inferInstanceAs (Decidable (_ ∧ _))

def lostId : SessionId := ⟨List.replicate 36 0x62, rfl⟩

/-- The open goroutine of session 0 gets past its next `n` steps. -/
def opens (n : Nat) : List Event := List.replicate n (.opener 0 true)

/-- The session is connected when the connection is lost. -/
def orderlyLoss : List Event :=
  ([.loop (.receive (lostId.1 ++ [1])), .loop .dispatch] : List Event) ++ opens 9 ++
    ([.loop .readError, .loop .scanBegin, .loop (.visit lostId), .loop .next, .loop .next,
      .loop .next, .loop .next, .loop .next, .loop .scanEnd] : List Event)

theorem leavesNothing_orderlyLoss : Meets step SeesClosed start orderlyLoss ∧
    (run step start orderlyLoss).isSome = true ∧ Always step LeavesNothing start orderlyLoss := by
  have h : Meets step SeesClosed start orderlyLoss := by decide +kernel
  exact ⟨h, by decide +kernel, leavesNothing_of_seesClosed orderlyLoss h⟩

/-- The scan is over before the open goroutine has stored its session; `sendPacket`
then takes the send case. -/
def lateStore : List Event :=
  [.loop (.receive (lostId.1 ++ [1])), .loop .dispatch, .loop .readError, .loop .scanBegin,
    .loop .scanEnd] ++ opens 9

theorem lateStore_leaves_session : ¬∀ es, Always step LeavesNothing start es := by
  intro h
  have hsome : (run step start lateStore).isSome = true := by decide +kernel
  obtain ⟨t, ht⟩ := Option.isSome_iff_exists.mp hsome
  have hleft : Left t 0 :=
    Or.inr ⟨(run_component ht State.link (by decide +kernel)).symm,
      run_component ht State.loop (by decide +kernel)⟩
  have hopens : t.opens =
      [⟨lostId, false, [], 0, true, .connected, .opened, true, .opened⟩] :=
    run_component ht State.opens (by decide +kernel)
  have hgone := h lateStore lateStore [] t (List.append_nil _).symm ht 0 hleft
    (by rw [hopens]; decide) 0 _ (by rw [hopens]; rfl) rfl rfl
  exact absurd hgone.1 (by decide)

end SplitProxy.WorkerProcess
