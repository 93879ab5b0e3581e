import SplitProxy.WorkerEffects

/-!
# The answer to an open

An open goroutine that returns without a frame has lost its session to somebody else.
While the connection is up that can only be `closeSession` for a close frame, which
answers itself: a full write queue, the session writer and the readers cannot close a
session before CmdConnected has been queued for its id.
-/
namespace SplitProxy.WorkerProcess

open Runs

/-! ## What is asked of a run, and what comes of it -/

/-- Data for the id comes only once CmdConnected has been queued for it. -/
def WaitsForConnected (n : Nat) (id : SessionId) (s : State) : Event → Prop
  | .loop (.receive msg) => ∀ f, parseFrame msg = some f → f.id = id →
      f.cmd = .data ∨ f.cmd = .udpData → .connected ∈ commands s n id
  | _ => True

/-- CmdConnected or CmdClose for the id has been put in the send queue, or the loop is
about to put it there. -/
def Answered (s : State) (n : Nat) (id : SessionId) : Prop :=
  .connected ∈ commands s n id ∨ .close ∈ commands s n id ∨ s.link = n ∧ s.loop.answers id

/-- In this run the dial of the open goroutine has failed. -/
def DialFailed (es : List Event) (i : Nat) : Prop :=
  ∃ before after m x, es = before ++ .opener i false :: after ∧
    run step start before = some m ∧ m.opens[i]? = some x ∧ x.opener = .dialing

variable {s t : State} {e : Event} {x y : Session} {i n : Nat} {id : SessionId}

/-! ## Every silent return is answered for -/

/-- The process has been stopped, the connection is lost, or the id is not fresh on it. -/
def Excused (s : State) (n : Nat) (id : SessionId) : Prop :=
  s.cancelled = true ∨ (s.links n).done = true ∨ ∃ y ∈ s.opens, y.id = id ∧ y.link ≠ n

def Settled (s : State) (n : Nat) (id : SessionId) : Prop := Answered s n id ∨ Excused s n id

/-- The loop works for the last connection, and stays until that is lost. -/
structure Attached (s : State) : Prop where
  behind : ∀ m, m < s.link → (s.links m).done = true
  gone : s.loop.gone = true → (s.links s.link).done = true
  links : ∀ (i : Nat) x, s.opens[i]? = some x → x.link ≤ s.link

/-- Data reaches a session, and what would close it for that, only after CmdConnected. -/
structure Awaited (n : Nat) (id : SessionId) (s : State) : Prop where
  delivers : s.loop.delivers id → .connected ∈ commands s n id
  enqueue : ∀ i id' p, s.loop = .enqueue i id' p → ∃ x, s.opens[i]? = some x ∧ x.id = id'
  fed : ∀ (i : Nat) x, s.opens[i]? = some x → x.id = id → (s.streams i).fed →
    .connected ∈ commands s n id
  unused : ∀ i, s.opens.length ≤ i → s.streams i = idle
  closing : ∀ i j, (s.streams i).writer = .close j →
    ∃ x y, s.opens[i]? = some x ∧ s.opens[j]? = some y ∧ y.id = x.id
  early : ∀ (i : Nat) x, s.opens[i]? = some x → x.opener.early = true →
    (s.streams i).writer = .notStarted ∧ (s.streams i).reader = .notStarted

/-- An open goroutine that returns, or can only return without a frame, is answered for. -/
structure Owing (n : Nat) (id : SessionId) (s : State) : Prop where
  done : ∀ (i : Nat) x, s.opens[i]? = some x → x.id = id → x.opener.early = true →
    isDone x = true → Settled s n id
  aborts : ∀ (i : Nat) x, s.opens[i]? = some x → x.id = id →
    x.opener = .abortClose ∨ x.opener = .abortDelete → Settled s n id
  final : ∀ (i : Nat) x, s.opens[i]? = some x → x.id = id → x.opener.final = true →
    Settled s n id ∨ x.stored = false ∧ ∃ y ∈ s.opens, y.id = id ∧ y.stored = true

theorem excused_step (h : step s e = some t) (hs : Excused s n id) : Excused t n id := by
  rcases hs with hc | hd | ⟨y, hy, hid, hlink⟩
  · exact Or.inl (cancelled_mono h hc)
  · exact Or.inr (Or.inl (done_mono h hd))
  · obtain ⟨j, hj⟩ := List.mem_iff_getElem?.mp hy
    obtain ⟨z, hz, hzid, hzlink, -⟩ := session_after (step_opens h) hj
    exact Or.inr (Or.inr ⟨z, List.mem_of_getElem? hz, hzid.trans hid, hzlink ▸ hlink⟩)

/-- A `closeSession` for a close frame puts its frame in the queue. -/
theorem answers_lasts (h : LoopTurn s e t) (hlink : s.link = n) (ha : s.loop.answers id) :
    Answered t n id ∨ (s.links n).done = true := by
  cases h with
  | stays hl hk => exact Or.inl (Or.inr (Or.inr ⟨hk.trans hlink, hl ▸ ha⟩))
  | reads hl ht hk => exact absurd ha (hl.2 id)
  | closed i id' who hl ht hk =>
    rw [hl] at ha
    cases who with
    | frame => exact Or.inl (Or.inr (Or.inr ⟨hk.trans hlink, by rw [ht]; exact ha⟩))
    | overflow | scan => cases ha
  | deleted i id' who hl ht hk =>
    rw [hl] at ha
    cases who with
    | frame => exact Or.inl (Or.inr (Or.inr ⟨hk.trans hlink, by rw [ht]; exact ha⟩))
    | overflow | scan => cases ha
  | replies id' hl ht hk hsent =>
    rw [hl] at ha
    cases ha
    rcases hsent with hpush | hd
    · exact Or.inl (Or.inr (Or.inl (hlink ▸ commands_pushed hpush)))
    · exact Or.inr (hlink ▸ hd)
  | leaves hl ht hk =>
    rcases hl with hl | ⟨hl, -⟩
    · cases hpc : s.loop with
      | closing i id' who => cases who <;> simp_all [LoopPc.gone, LoopPc.answers]
      | deleting i id' who => cases who <;> simp_all [LoopPc.gone, LoopPc.answers]
      | _ => simp_all [LoopPc.gone, LoopPc.answers]
    · rw [hl] at ha
      cases ha
  | receives msg f he hf hl ht hk | delivers f i hl hf hm ht hk | full i id' p hl ht hk
  | finds f i hl ht hk | overflows id' i hl ht hk | reconnects hl ht hk =>
    rw [hl] at ha
    cases ha

theorem settled_step (hsends : SendEffect s e t) (h : step s e = some t) (hs : Settled s n id) :
    Settled t n id := by
  rcases hs with (hc | hc | ⟨hlink, ha⟩) | hx
  · exact Or.inl (Or.inl (commands_mono hsends n hc))
  · exact Or.inl (Or.inr (Or.inl (commands_mono hsends n hc)))
  · rcases answers_lasts (step_turn h) hlink ha with ht | hd
    · exact Or.inl ht
    · exact Or.inr (Or.inr (Or.inl (done_mono h hd)))
  · exact Or.inr (excused_step h hx)

theorem attached_step (hs : Attached s) (h : step s e = some t) : Attached t := by
  have hturn := step_turn h
  have hlink : s.link ≤ t.link := by
    cases hturn <;> omega
  refine ⟨fun m hm => ?_, fun hg => ?_, fun i y hy => ?_⟩
  · by_cases hlt : m < s.link
    · exact done_mono h (hs.behind m hlt)
    · cases hturn with
      | reconnects hl ht hk =>
        have hm' : m = s.link := by omega
        exact hm' ▸ done_mono h (hs.gone (by rw [hl]; rfl))
      | _ => omega
  · have hkeep : s.loop.gone = true → t.link = s.link → (t.links t.link).done = true :=
      fun hl hk => hk ▸ done_mono h (hs.gone hl)
    cases hturn with
    | stays hl hk => exact hkeep (hl ▸ hg) hk
    | closed i id who hl ht hk =>
      rw [ht] at hg
      refine hkeep ?_ hk
      rw [hl]
      cases who <;> exact hg
    | deleted i id who hl ht hk =>
      rw [ht] at hg
      refine hkeep ?_ hk
      rw [hl]
      cases who <;> exact hg
    | leaves hl ht hk =>
      rcases hl with hl | ⟨-, hd⟩
      · exact hkeep hl hk
      · rw [hk]
        exact hd
    | receives msg f he hf hl ht hk | reads hl ht hk | delivers f i hl hf hm ht hk
    | full i id p hl ht hk | finds f i hl ht hk | overflows id i hl ht hk
    | replies id hl ht hk hsent | reconnects hl ht hk =>
      rw [ht] at hg
      cases hg
  · rcases session_before (step_opens h) hy with hi | ⟨x, hi, rfl, -⟩ | ⟨c, x, -, hi, hadv⟩ |
      ⟨-, f, -, rfl⟩
    · exact (hs.links i y hi).trans hlink
    · rw [closeStep_link]
      exact (hs.links i x hi).trans hlink
    · rw [hadv.link]
      exact (hs.links i x hi).trans hlink
    · exact hlink

/-- A session and its place in its open, before the step. -/
theorem session_was (h : OpensEffect s e t) (hi : t.opens[i]? = some y) :
    (∃ x, s.opens[i]? = some x ∧ x.id = y.id ∧ (y.opener.early = true → x.opener.early = true)) ∨
      s.opens.length ≤ i := by
  rcases session_before h hi with hx | ⟨x, hx, rfl, -⟩ | ⟨c, x, -, hx, hadv⟩ | ⟨hlen, -⟩
  · exact Or.inl ⟨y, hx, rfl, fun h => h⟩
  · exact Or.inl ⟨x, hx, (closeStep_id x).symm, by simp⟩
  · exact Or.inl ⟨x, hx, hadv.id.symm, hadv.early⟩
  · exact Or.inr (Nat.le_of_eq hlen.symm)

/-- A session that is not there yet has no goroutines that could take a step. -/
theorem streams_unused (h : StreamsEffect s e t) (hi : s.opens.length ≤ i) :
    t.streams i = s.streams i ∨ ∃ id p, s.loop = .enqueue i id p := by
  have hother : ∀ {j : Nat} {x : Session} {g : Streams}, s.opens[j]? = some x →
      t.streams = Function.update s.streams j g → t.streams i = s.streams i := by
    intro j x g hj ht
    have hlt := (List.getElem?_eq_some_iff.mp hj).1
    exact (updated_streams ht i).resolve_right fun h => by omega
  cases h with
  | same ht => exact Or.inl (by rw [ht])
  | feed j id p hl ht =>
    rcases updated_streams ht i with hsame | ⟨rfl, -⟩
    · exact Or.inl hsame
    · exact Or.inr ⟨id, p, hl⟩
  | start j x hj hx hy ht => exact Or.inl (hother hj ht)
  | write j x g hj hst hr hf hc ht => exact Or.inl (hother hj ht)
  | read j x g hj hst hw hch ht => exact Or.inl (hother hj ht)

theorem unused_step (hs : Awaited n id s) (h : StreamsEffect s e t) (hi : s.opens.length ≤ i) :
    t.streams i = idle := by
  rcases streams_unused h hi with hsame | ⟨id', p, hl⟩
  · rw [hsame, hs.unused i hi]
  · obtain ⟨x, hx, -⟩ := hs.enqueue i id' p hl
    have hlt := (List.getElem?_eq_some_iff.mp hx).1
    omega

/-- Data is handed on from one position of the loop to the next. -/
theorem delivers_step (hs : Awaited n id s) (hC : WaitsForConnected n id s e) (h : LoopTurn s e t)
    (hd : t.loop.delivers id) : .connected ∈ commands s n id := by
  cases h with
  | stays hl hk => exact hs.delivers (hl ▸ hd)
  | receives msg f he hf hl ht hk =>
    subst he
    rw [ht] at hd
    exact hC f hf hd.1 hd.2
  | delivers f i hl hf hm ht hk =>
    rw [ht] at hd
    exact hs.delivers (by rw [hl]; exact ⟨hd, hf⟩)
  | full i id' p hl ht hk =>
    rw [ht] at hd
    exact hs.delivers (by rw [hl]; exact hd)
  | overflows id' i hl ht hk =>
    rw [ht] at hd
    exact hs.delivers (by rw [hl]; exact hd)
  | closed i id' who hl ht hk =>
    rw [ht] at hd
    refine hs.delivers ?_
    rw [hl]
    cases who <;> exact hd
  | deleted i id' who hl ht hk =>
    rw [ht] at hd
    cases who <;> cases hd
  | leaves hl ht hk =>
    cases hpc : t.loop with
    | closing i id' who => cases who <;> simp_all [LoopPc.gone, LoopPc.delivers]
    | deleting i id' who => cases who <;> simp_all [LoopPc.gone, LoopPc.delivers]
    | _ => simp_all [LoopPc.gone, LoopPc.delivers]
  | reads hl ht hk | finds f i hl ht hk | replies id' hl ht hk hsent | reconnects hl ht hk =>
    rw [ht] at hd
    cases hd

theorem fed_step (hs : Awaited n id s) (h : StreamsEffect s e t) (hi : s.opens[i]? = some x)
    (hid : x.id = id) (hf : (t.streams i).fed) : .connected ∈ commands s n id := by
  have hold : (s.streams i).fed → .connected ∈ commands s n id := hs.fed i x hi hid
  cases h with
  | same ht => exact hold (ht ▸ hf)
  | feed j id' p hl ht =>
    rcases updated_streams ht i with hsame | ⟨rfl, -⟩
    · exact hold (hsame ▸ hf)
    · obtain ⟨z, hz, hzid⟩ := hs.enqueue j id' p hl
      rw [hi] at hz
      cases hz
      exact hs.delivers (by rw [hl]; exact hzid.symm.trans hid)
  | start j z hj hz hy ht =>
    rcases updated_streams ht i with hsame | ⟨rfl, hg⟩
    · exact hold (hsame ▸ hf)
    · rw [hg] at hf
      rcases hf with hf | hf
      · exact hold (Or.inl hf)
      · cases hf
  | write j z g hj hst hr hfed hc ht =>
    rcases updated_streams ht i with hsame | ⟨rfl, hg⟩
    · exact hold (hsame ▸ hf)
    · exact hold (hfed (hg ▸ hf))
  | read j z g hj hst hw hch ht =>
    rcases updated_streams ht i with hsame | ⟨rfl, hg⟩
    · exact hold (hsame ▸ hf)
    · rw [hg, Streams.fed, hw, hch] at hf
      exact hold hf

theorem closing_step (hinv : Inv s) (hs : Awaited n id s) (h : StreamsEffect s e t) {j : Nat}
    (hw : (t.streams i).writer = .close j) :
    ∃ x y, s.opens[i]? = some x ∧ s.opens[j]? = some y ∧ y.id = x.id := by
  have hold : (s.streams i).writer = .close j → _ := hs.closing i j
  cases h with
  | same ht => exact hold (ht ▸ hw)
  | feed k id' p hl ht =>
    rcases updated_streams ht i with hsame | ⟨rfl, hg⟩
    · exact hold (hsame ▸ hw)
    · rw [hg] at hw
      exact hold hw
  | start k z hk hz hy ht =>
    rcases updated_streams ht i with hsame | ⟨rfl, hg⟩
    · exact hold (hsame ▸ hw)
    · rw [hg] at hw
      cases hw
  | write k z g hk hst hr hfed hc ht =>
    rcases updated_streams ht i with hsame | ⟨rfl, hg⟩
    · exact hold (hsame ▸ hw)
    · rw [hg] at hw
      rcases hc j hw with hc | hm
      · exact hold hc
      · obtain ⟨y, hy, hyid, -⟩ := hinv.mapped z.id j hm
        exact ⟨z, y, hk, hy, hyid⟩
  | read k z g hk hst hw' hch ht =>
    rcases updated_streams ht i with hsame | ⟨rfl, hg⟩
    · exact hold (hsame ▸ hw)
    · rw [hg, hw'] at hw
      exact hold hw

theorem early_step (hs : Awaited n id s) (hopens : OpensEffect s e t) (h : StreamsEffect s e t)
    (hi : t.opens[i]? = some y) (hy : y.opener.early = true) :
    (t.streams i).writer = .notStarted ∧ (t.streams i).reader = .notStarted := by
  rcases session_was hopens hi with ⟨x, hx, -, hearly⟩ | hlen
  · obtain ⟨hw, hr⟩ := hs.early i x hx (hearly hy)
    cases h with
    | same ht =>
      rw [ht]
      exact ⟨hw, hr⟩
    | feed j id' p hl ht =>
      rcases updated_streams ht i with hsame | ⟨rfl, hg⟩
      · exact hsame ▸ ⟨hw, hr⟩
      · exact hg ▸ ⟨hw, hr⟩
    | start j z hj hz hz' ht =>
      rcases updated_streams ht i with hsame | ⟨rfl, -⟩
      · exact hsame ▸ ⟨hw, hr⟩
      · obtain ⟨y', hy', hpc⟩ := hz'
        rw [hi] at hy'
        cases hy'
        rw [hpc] at hy
        cases hy
    | write j z g hj hst hr' hfed hc ht =>
      rcases updated_streams ht i with hsame | ⟨rfl, -⟩
      · exact hsame ▸ ⟨hw, hr⟩
      · exact absurd hw hst
    | read j z g hj hst hw' hch ht =>
      rcases updated_streams ht i with hsame | ⟨rfl, -⟩
      · exact hsame ▸ ⟨hw, hr⟩
      · exact absurd hr hst
  · rw [unused_step hs h hlen]
    exact ⟨rfl, rfl⟩

theorem awaited_step (ht : Tally s) (hs : Awaited n id s) (hC : WaitsForConnected n id s e)
    (h : step s e = some t) : Awaited n id t := by
  have hopens := step_opens h
  have hstreams := step_streams h
  have hsends := step_sends ht.answers h
  have hafter : ∀ {i : Nat} {x : Session}, s.opens[i]? = some x →
      ∃ y, t.opens[i]? = some y ∧ y.id = x.id := by
    intro i x hi
    obtain ⟨y, hy, hid, -⟩ := session_after hopens hi
    exact ⟨y, hy, hid⟩
  refine ⟨fun hd => ?_, fun i id' p hl => ?_, fun i y hy hid hf => ?_, fun i hlen => ?_,
    fun i j hw => ?_, fun i y hy hearly => ?_⟩
  · exact commands_mono hsends n (delivers_step hs hC (step_turn h) hd)
  · have hold : ∃ x, s.opens[i]? = some x ∧ x.id = id' := by
      cases step_turn h with
      | stays hl' hk => exact hs.enqueue i id' p (hl' ▸ hl)
      | delivers f j hl' hf hm ht' hk =>
        rw [ht'] at hl
        cases hl
        obtain ⟨x, hx, hxid, -⟩ := ht.inv.mapped f.id i hm
        exact ⟨x, hx, hxid⟩
      | deleted j id'' who hl' ht' hk =>
        rw [ht'] at hl
        cases who <;> cases hl
      | leaves hl' ht' hk =>
        rw [hl] at ht'
        cases ht'
      | receives msg f he hf hl' ht' hk | reads hl' ht' hk | full j id'' q hl' ht' hk
      | finds f j hl' ht' hk | overflows id'' j hl' ht' hk | closed j id'' who hl' ht' hk
      | replies id'' hl' ht' hk hsent | reconnects hl' ht' hk =>
        rw [ht'] at hl
        cases hl
    obtain ⟨x, hx, hid⟩ := hold
    obtain ⟨y, hy, hyid⟩ := hafter hx
    exact ⟨y, hy, hyid.trans hid⟩
  · refine commands_mono hsends n ?_
    rcases session_was hopens hy with ⟨x, hx, hxid, -⟩ | hlen
    · exact fed_step hs hstreams hx (hxid.trans hid) hf
    · rw [unused_step hs hstreams hlen] at hf
      rcases hf with hf | hf
      · exact absurd rfl hf
      · cases hf
  · refine unused_step hs hstreams ?_
    by_contra hlt
    obtain ⟨y, hy, -⟩ := hafter (List.getElem?_eq_getElem (Nat.lt_of_not_le hlt))
    have := (List.getElem?_eq_some_iff.mp hy).1
    omega
  · obtain ⟨x, y, hx, hy, hid⟩ := closing_step ht.inv hs hstreams hw
    obtain ⟨x', hx', hxid⟩ := hafter hx
    obtain ⟨y', hy', hyid⟩ := hafter hy
    exact ⟨x', y', hx', hy', by rw [hyid, hid, hxid]⟩
  · exact early_step hs hopens hstreams hy hearly

/-- What settles an id on another connection than the one the session is given settles it. -/
theorem settled_of_link (hi : s.opens[i]? = some x) (hid : x.id = id)
    (h : x.link = n → Settled s n id) : Settled s n id := by
  by_cases hlink : x.link = n
  · exact h hlink
  · exact Or.inr (Or.inr (Or.inr ⟨x, List.mem_of_getElem? hi, hid, hlink⟩))

/-- Before the session has its connection only a close frame closes it, as long as the
broker connection is up. -/
theorem settled_of_closer (hinv : Inv s) (hatt : Attached s) (haw : Awaited n id s)
    (hi : s.opens[i]? = some x) (hid : x.id = id) (hearly : x.opener.early = true)
    (hclose : Closer s e i) : Settled s n id := by
  obtain ⟨hwriter, hreader⟩ := haw.early i x hi hearly
  cases hclose with
  | opener c z he hz hpc =>
    rw [hi] at hz
    cases hz
    rw [hpc] at hearly
    cases hearly
  | writer k hw =>
    obtain ⟨z, y, hk, hy, hyid⟩ := haw.closing k i hw
    rw [hi] at hy
    cases hy
    exact Or.inl (Or.inl (haw.fed k z hk (hyid.symm.trans hid) (Or.inr (by rw [hw]; rfl))))
  | reader hr =>
    rw [hreader] at hr
    cases hr
  | loop id' who hl =>
    obtain ⟨z, hz, hzid⟩ := hinv.closing i id' who hl
    rw [hi] at hz
    cases hz
    have hid' : id' = id := hzid.symm.trans hid
    refine settled_of_link hi hid fun hlink => ?_
    by_cases hcurrent : s.link = n
    · cases who with
      | frame => exact Or.inl (Or.inr (Or.inr ⟨hcurrent, by rw [hl]; exact hid'⟩))
      | overflow => exact Or.inl (Or.inl (haw.delivers (by rw [hl]; exact hid')))
      | scan => exact Or.inr (Or.inr (Or.inl (hcurrent ▸ hatt.gone (by rw [hl]; rfl))))
    · have hle := hatt.links i x hi
      exact Or.inr (Or.inr (Or.inl (hatt.behind n (by omega))))

/-- Where the open goroutine goes without being done, or is told to stop. -/
theorem settled_of_outcome {pc : OpenPc} (ht : Tally s) (hs : Owing n id s)
    (hi : s.opens[i]? = some x) (hid : x.id = id) (hout : Outcome s t x pc)
    (hpc : pc.final = true ∨ pc = .abortClose ∨ pc = .abortDelete) :
    Settled s n id ∨ Settled t n id ∨ pc = .returned ∧ x.stored = false ∧
      ∃ y ∈ s.opens, y.id = id ∧ y.stored = true := by
  cases hout with
  | goesOn hfinal hclose hdelete =>
    rcases hpc with hpc | hpc | hpc
    · rw [hfinal] at hpc
      cases hpc
    · exact absurd hpc hclose
    · exact absurd hpc hdelete
  | stops h =>
    refine Or.inl (settled_of_link hi hid fun hlink => Or.inr ?_)
    rcases h with h | h
    · exact Or.inl h
    · exact Or.inr (Or.inl (hlink ▸ h))
  | aborts h => exact Or.inl (hs.aborts i x hi hid h)
  | refused h =>
    exact Or.inl (hs.done i x hi hid (by rw [h]; rfl) ((ht.inv.sound i x hi).refused h))
  | taken h hx =>
    obtain ⟨j, hj⟩ := Option.isSome_iff_exists.mp h
    obtain ⟨y, hy, hyid, hst⟩ := ht.inv.mapped x.id j hj
    exact Or.inr (Or.inr ⟨rfl, (ht.inv.sound i x hi).before hx, y, List.mem_of_getElem? hy,
      hyid.trans hid, hst⟩)
  | sends c hc hpush =>
    rw [hid] at hpush
    by_cases hlink : x.link = n
    · have hmem := commands_pushed (hlink ▸ hpush)
      rcases hc with rfl | rfl
      · exact Or.inr (Or.inl (Or.inl (Or.inl hmem)))
      · exact Or.inr (Or.inl (Or.inl (Or.inr (Or.inl hmem))))
    · exact Or.inl (settled_of_link hi hid fun h => absurd h hlink)

theorem owing_step (ht : Tally s) (hatt : Attached s) (haw : Awaited n id s) (hs : Owing n id s)
    (h : step s e = some t) : Owing n id t := by
  have hopens := step_opens h
  have hkeep : Settled s n id → Settled t n id := settled_step (step_sends ht.answers h) h
  have hreg : (∃ y ∈ s.opens, y.id = id ∧ y.stored = true) →
      ∃ y ∈ t.opens, y.id = id ∧ y.stored = true := by
    rintro ⟨y, hy, hid, hst⟩
    obtain ⟨j, hj⟩ := List.mem_iff_getElem?.mp hy
    obtain ⟨z, hz, hzid, -, hzst⟩ := session_after hopens hj
    exact ⟨z, List.mem_of_getElem? hz, hzid.trans hid, hzst hst⟩
  refine ⟨fun i y hy hid hearly hdone => ?_, fun i y hy hid hpc => ?_, fun i y hy hid hfin => ?_⟩
  · refine hkeep ?_
    rcases session_before hopens hy with hi | ⟨x, hi, rfl, hclose⟩ | ⟨c, x, -, hi, hadv⟩ |
      ⟨-, f, -, rfl⟩
    · exact hs.done i y hi hid hearly hdone
    · rw [closeStep_id] at hid
      rw [closeStep_opener] at hearly
      exact settled_of_closer ht.inv hatt haw hi hid hearly hclose
    · refine hs.done i x hi (hadv.id.symm.trans hid) (hadv.early hearly) ?_
      rw [isDone, ← hadv.stage]
      exact hdone
    · cases hdone
  · rcases session_before hopens hy with hi | ⟨x, hi, rfl, -⟩ | ⟨c, x, -, hi, hadv⟩ |
      ⟨-, f, -, rfl⟩
    · exact hkeep (hs.aborts i y hi hid hpc)
    · rw [closeStep_id] at hid
      rw [closeStep_opener] at hpc
      exact hkeep (hs.aborts i x hi hid hpc)
    · rcases settled_of_outcome ht hs hi (hadv.id.symm.trans hid) hadv.outcome (Or.inr hpc) with
        hset | hset | ⟨hret, -⟩
      · exact hkeep hset
      · exact hset
      · rw [hret] at hpc
        rcases hpc with hpc | hpc <;> cases hpc
    · rcases hpc with hpc | hpc <;> cases hpc
  · rcases session_before hopens hy with hi | ⟨x, hi, rfl, -⟩ | ⟨c, x, -, hi, hadv⟩ |
      ⟨-, f, -, rfl⟩
    · exact (hs.final i y hi hid hfin).imp hkeep (And.imp_right hreg)
    · rw [closeStep_id] at hid
      rw [closeStep_opener] at hfin
      rw [closeStep_stored]
      exact (hs.final i x hi hid hfin).imp hkeep (And.imp_right hreg)
    · rcases settled_of_outcome ht hs hi (hadv.id.symm.trans hid) hadv.outcome (Or.inl hfin) with
        hset | hset | ⟨-, hst, hother⟩
      · exact Or.inl (hkeep hset)
      · exact Or.inl hset
      · exact Or.inr ⟨(hadv.kept hfin).trans hst, hreg hother⟩
    · cases hfin

/-! ## After a failed dial -/

/-- A returned open goroutine that did not get to its last line is not in the map. -/
def Unregistered (s : State) : Prop :=
  ∀ (i : Nat) x, s.opens[i]? = some x → x.opener = .returned → s.sessions x.id ≠ some i

theorem Unregistered.set (hs : Unregistered s) (hi : s.opens[i]? = some x)
    (hy : y.opener = .returned → s.sessions y.id ≠ some i) : Unregistered (s.set i y) := by
  intro j z hz hret
  rw [get_set hi] at hz
  split at hz
  · rename_i hij
    cases hz
    rw [hij]
    exact hy hret
  · exact hs j z hz hret

theorem Unregistered.delete (hs : Unregistered s) (id : SessionId) : Unregistered (s.delete id) :=
  fun i x hi hret hm => hs i x hi hret (delete_some hm).2

theorem Unregistered.close (hs : Unregistered s) (j : Nat) : Unregistered (s.close j) := by
  rcases @close_eq_set s j with h | ⟨x, hj, h⟩
  · rw [h]
    exact hs
  · rw [h]
    refine hs.set hj fun hret => ?_
    rw [closeStep_id]
    exact hs j x hj (by simpa using hret)

theorem unregistered_opener {choice : Bool} (hinv : Inv s) (hs : Unregistered s)
    (hi : s.opens[i]? = some x) (h : OpenEffect s i x choice t) : Unregistered t := by
  cases h with
  | run hy hid hlink hstored hstage hrun hdel =>
    refine hs.set hi fun hret => ?_
    rw [hret] at hrun
    cases hrun
  | store hnone hy =>
    intro j z hz hret hm
    rw [show _ = _ from get_set hi j] at hz
    split at hz
    · cases hz
      cases hret
    · rename_i hij
      by_cases hid : z.id = x.id
      · simp only [hid, Function.update_self, Option.some.injEq] at hm
        exact hij hm.symm
      · simp only [Function.update_of_ne hid] at hm
        exact hs j z hz hret hm
  | fail hx hy => exact (hs.delete x.id).set hi nofun
  | close => exact hs.close i
  | leave hx hy =>
    refine hs.set hi fun _ hm => ?_
    obtain ⟨z, hz, -, hst⟩ := hinv.mapped _ _ hm
    rw [hi] at hz
    cases hz
    rw [hx] at hst
    cases hst
  | unopened hx hdel htarget hy => exact hs.set hi fun _ => hinv.unmapped i x hi hdel
  | abandon hx hdone htarget hy =>
    exact (hs.delete x.id).set hi fun _ hm => (delete_some hm).1 rfl
  | connected hx hchoice hy => exact hs.set hi nofun

theorem unregistered_step (hinv : Inv s) (hs : Unregistered s) (h : step s e = some t) :
    Unregistered t := by
  rcases step_effect h with h | ⟨i, x, choice, -, hi, h⟩ | ⟨a, -, h⟩
  · cases h with
    | «local» hc => exact hs
    | close i => exact hs.close i
    | delete hid => exact hs.delete _
  · exact unregistered_opener hinv hs hi (openStep_effect (hinv.sound i x hi) h)
  · cases loopStep_effect h with
    | spawn hl hf =>
      intro i x hi hret
      rcases get_append hi with hi | ⟨-, rfl⟩
      · exact hs i x hi hret
      · cases hret
    | close i => exact hs.close i
    | deleted hl => exact hs.delete _
    | _ => exact hs

/-- The dial has failed; what is left is to delete the session and to send CmdClose. -/
def OpenPc.dialLost (pc : OpenPc) : Bool :=
  pc = .dialFailed || pc = .failed || pc = .sendClose || pc = .returned

theorem dialLost_openStep {choice : Bool} (hi : s.opens[i]? = some x)
    (hx : x.opener.dialLost = true) (h : openStep s i x choice = some t) :
    ∃ y, t.opens[i]? = some y ∧ y.opener.dialLost = true := by
  have hget : ∀ y, (s.set i y).opens[i]? = some y := fun y => (get_set hi i).trans (if_pos rfl)
  cases hpc : x.opener with
  | dialFailed =>
    simp only [openStep, hpc] at h
    cases h
    exact ⟨_, hget _, rfl⟩
  | failed =>
    simp only [openStep, hpc] at h
    cases h
    refine ⟨_, hget _, ?_⟩
    split <;> rfl
  | sendClose =>
    simp only [openStep, hpc] at h
    obtain ⟨u, hu, rfl⟩ := Option.map_eq_some_iff.mp h
    obtain ⟨ls, rfl⟩ := sendPacket_some hu
    exact ⟨_, hget _, rfl⟩
  | returned =>
    simp only [openStep, hpc] at h
    cases h
  | _ =>
    rw [hpc] at hx
    cases hx

theorem dialLost_step (hi : ∃ x, s.opens[i]? = some x ∧ x.opener.dialLost = true)
    (h : step s e = some t) : ∃ y, t.opens[i]? = some y ∧ y.opener.dialLost = true := by
  obtain ⟨x, hi, hx⟩ := hi
  have hopens := step_opens h
  obtain ⟨y, hy, -⟩ := session_after hopens hi
  rcases session_before hopens hy with hz | ⟨z, hz, rfl, -⟩ | ⟨c, z, rfl, hz, -⟩ | ⟨hlen, -⟩
  · rw [hi] at hz
    cases hz
    exact ⟨x, hy, hx⟩
  · rw [hi] at hz
    cases hz
    exact ⟨_, hy, by rw [closeStep_opener]; exact hx⟩
  · simp only [step, hi] at h
    exact dialLost_openStep hi hx h
  · have := (List.getElem?_eq_some_iff.mp hi).1
    omega

theorem dialLost_of_failed {es : List Event} (h : run step start es = some s)
    (hfailed : DialFailed es i) : ∃ x, s.opens[i]? = some x ∧ x.opener.dialLost = true := by
  obtain ⟨before, after, m, x, rfl, hm, hi, hx⟩ := hfailed
  rw [run_append, hm, Option.bind_some] at h
  obtain ⟨u, hu, hrest⟩ := run_cons_some h
  refine run_preserves (fun _ _ _ hs hst => dialLost_step hs hst) ?_ hrest
  simp only [step, hi, openStep, hx, Bool.false_eq_true, ↓reduceIte] at hu
  cases hu
  exact ⟨_, (get_set hi i).trans (if_pos rfl), rfl⟩

/-! ## Every run -/

theorem owing_run {es : List Event} (h : run step start es = some s)
    (hwaits : Meets step (WaitsForConnected n id) start es) :
    Tally s ∧ Attached s ∧ Awaited n id s ∧ Owing n id s := by
  have hnone : ∀ (i : Nat) x, start.opens[i]? ≠ some x := by
    intro i x hi
    cases hi
  refine run_invariant (I := fun s => Tally s ∧ Attached s ∧ Awaited n id s ∧ Owing n id s)
    (fun s e t hs hC hst => ?_) ⟨tally_start, ?_, ?_, ?_⟩ hwaits h
  · obtain ⟨ht, hatt, haw, how⟩ := hs
    exact ⟨tally_step ht hst, attached_step hatt hst, awaited_step ht haw hC hst,
      owing_step ht hatt haw how hst⟩
  · exact ⟨nofun, nofun, fun i x hi => absurd hi (hnone i x)⟩
  · exact ⟨nofun, nofun, fun i x hi => absurd hi (hnone i x), fun _ _ => rfl, nofun,
      fun i x hi => absurd hi (hnone i x)⟩
  · exact ⟨fun i x hi => absurd hi (hnone i x), fun i x hi => absurd hi (hnone i x),
      fun i x hi => absurd hi (hnone i x)⟩

theorem unregistered_run {es : List Event} (h : run step start es = some s) :
    Inv s ∧ Unregistered s :=
  run_preserves (I := fun s => Inv s ∧ Unregistered s)
    (fun _ _ _ hs hst => ⟨inv_step hs.1 hst, unregistered_step hs.1 hs.2 hst⟩)
    ⟨inv_start, fun i x hi => by cases hi⟩ h

/-- As long as its connection is up, an open that has returned is answered, and after a
failed dial its id is free. An id that is opened again on the same connection is answered
once all of its opens have returned. -/
theorem open_answered (es : List Event) (s : State) (i : Nat) (x : Session)
    (h : run step start es = some s) (hi : s.opens[i]? = some x)
    (hwaits : Meets step (WaitsForConnected x.link x.id) start es)
    (hup : s.cancelled = false ∧ (s.links x.link).done = false) :
    (Once s i x.id →
      (x.opener.final = true → Answered s x.link x.id) ∧
        (DialFailed es i → x.opener ≠ .dialFailed → s.sessions x.id = none)) ∧
      ((∀ y ∈ s.opens, y.id = x.id → y.link = x.link ∧ y.opener.final = true) →
        Answered s x.link x.id) := by
  obtain ⟨ht, -, -, how⟩ := owing_run h hwaits
  have hall : (∀ y ∈ s.opens, y.id = x.id → y.link = x.link ∧ y.opener.final = true) →
      Answered s x.link x.id := by
    intro hret
    have hsettled : Settled s x.link x.id := by
      rcases how.final i x hi rfl (hret x (List.mem_of_getElem? hi) rfl).2 with hx | ⟨-, y, hy, hid, hst⟩
      · exact hx
      · obtain ⟨j, hj⟩ := List.mem_iff_getElem?.mp hy
        rcases how.final j y hj hid (hret y hy hid).2 with hx | ⟨hst', -⟩
        · exact hx
        · rw [hst] at hst'
          cases hst'
    rcases hsettled with ha | hc | hd | ⟨y, hy, hid, hlink⟩
    · exact ha
    · rw [hup.1] at hc
      cases hc
    · rw [hup.2] at hd
      cases hd
    · exact absurd (hret y hy hid).1 hlink
  refine ⟨fun honce => ⟨fun hfin => hall fun y hy hid => ?_, fun hfailed hpc => ?_⟩, hall⟩
  · obtain ⟨j, hj⟩ := List.mem_iff_getElem?.mp hy
    obtain rfl := honce j y hj hid
    rw [hi] at hj
    cases hj
    exact ⟨rfl, hfin⟩
  · obtain ⟨hinv, hun⟩ := unregistered_run h
    obtain ⟨y, hy, hlost⟩ := dialLost_of_failed h hfailed
    rw [hi] at hy
    cases hy
    have hnot : s.sessions x.id ≠ some i := by
      cases hx : x.opener with
      | dialFailed => exact absurd hx hpc
      | failed | sendClose => exact hinv.unmapped i x hi (by rw [hx]; rfl)
      | returned => exact hun i x hi hx
      | _ =>
        rw [hx] at hlost
        cases hlost
    cases hm : s.sessions x.id with
    | none => rfl
    | some j =>
      obtain ⟨z, hz, hid, -⟩ := hinv.mapped x.id j hm
      exact absurd (honce j z hz hid ▸ hm) hnot

instance {n : Nat} {id : SessionId} {s : State} {e : Event} :
    Decidable (WaitsForConnected n id s e) :=
  match e with
  | .loop (.receive msg) =>
    match h : parseFrame msg with
    | none => isTrue fun f hf => by rw [h] at hf; cases hf
    | some f => decidable_of_iff
        (f.id = id → f.cmd = .data ∨ f.cmd = .udpData → .connected ∈ commands s n id)
        ⟨fun hC g hg => by rw [h] at hg; cases hg; exact hC, fun hC => hC f h⟩
  | .cancel | .watch | .brokerWrite _ _ | .brokerPing _ | .brokerStop _ | .opener _ _
  | .writer _ _ | .reader _ _ => isTrue trivial
  | .loop .readError | .loop .dispatch | .loop .queue | .loop .drop | .loop .full | .loop .next
  | .loop (.send _) | .loop .scanBegin | .loop (.visit _) | .loop .scanEnd
  | .loop .reconnect => isTrue trivial

def refusedId : SessionId := ⟨List.replicate 36 0x64, rfl⟩

/-- A close frame comes during the dial, and `setConn` finds the session closed. -/
def closedDuringDial : List Event :=
  ([.loop (.receive (refusedId.1 ++ [1])), .loop .dispatch] : List Event) ++
    (List.replicate 4 (.opener 0 true) : List Event) ++
    ([.loop (.receive (refusedId.1 ++ [3])), .loop .dispatch, .loop .next] : List Event) ++
      (List.replicate 4 (.opener 0 true) : List Event)

theorem answered_closedDuringDial : ∃ s x, run step start closedDuringDial = some s ∧
    s.opens[0]? = some x ∧ x.opener = .returned ∧ commands s 0 refusedId = [] ∧
      Answered s x.link x.id := by
  have hsome : (run step start closedDuringDial).isSome = true := by decide +kernel
  obtain ⟨s, hs⟩ := Option.isSome_iff_exists.mp hsome
  have hopens : s.opens = [⟨refusedId, false, [], 0, true, .returned, .doneClosed, false, .closed⟩] :=
    run_component hs State.opens (by decide +kernel)
  have hcancelled : s.cancelled = false := run_component hs State.cancelled (by decide +kernel)
  have hdone : (s.links 0).done = false :=
    run_component hs (fun s => (s.links 0).done) (by decide +kernel)
  have hsent : commands s 0 refusedId = [] :=
    run_component hs (fun s => commands s 0 refusedId) (by decide +kernel)
  have hi : s.opens[0]? =
      some ⟨refusedId, false, [], 0, true, .returned, .doneClosed, false, .closed⟩ := by
    rw [hopens]
    rfl
  refine ⟨s, _, hs, hi, rfl, hsent, ?_⟩
  refine (open_answered closedDuringDial s 0 _ hs hi (by decide +kernel) ⟨hcancelled, hdone⟩).1
    (fun j y hj _ => ?_) |>.1 rfl
  rw [hopens] at hj
  match j with
  | 0 => rfl
  | j + 1 => cases hj

end SplitProxy.WorkerProcess
