import Mathlib.Logic.Function.Basic
import SplitProxy.Runs
import SplitProxy.Fifo
import SplitProxy.Sweep
import SplitProxy.Wire

/-!
# Opening sessions while the broker link dies

Any number of `openSession` calls on one `BrokerConnection` beside its `close`.
The session goes into `c.sessions` first and its request is sent second; `close`
closes `c.done` and then scans the map once. The mode check and the marshalling
of the request, which has only string fields, fail before or never, so a call
starts here with the store under the id `newSessionID` gave it.
-/
namespace SplitProxy.OpenSession

open Runs SyncMap

/-- A `*BrokerSession` as the map holds it: the call that made it, and when. -/
structure BrokerSession (K : Type) where
  call : K
  serial : Nat
  deriving DecidableEq, Repr

/-- Where an `openSession` call stands. -/
inductive OpenPc (Id : Type) where
  | notCalled
  | stored (id : Id) (serial : Nat)
  | refused (id : Id)
  | closing
  | failed
  | returned (id : Id) (serial : Nat)
  deriving DecidableEq, Repr

/-- The one execution of `BrokerConnection.close`. -/
inductive ClosePc (K Id : Type) where
  | notCalled
  | doneClosed
  | scanning (r : Sweep Id (BrokerSession K))
  | deleting (r : Sweep Id (BrokerSession K)) (id : Id) (x : BrokerSession K)
  | closing (r : Sweep Id (BrokerSession K)) (x : BrokerSession K)
  | swept
  | completed
  deriving DecidableEq, Repr

structure State (K Id : Type) where
  sessions : Entries Id (BrokerSession K)
  serial : Nat
  /-- ids `newSessionID` has returned so far -/
  used : List Id
  opens : K → OpenPc Id
  /-- the session's `done` channel is closed -/
  done : K → Bool
  close : ClosePc K Id
  writeCh : Fifo Id

def initial (K Id : Type) : State K Id where
  sessions := []
  serial := 0
  used := []
  opens := fun _ => .notCalled
  done := fun _ => false
  close := .notCalled
  writeCh := .empty

inductive Event (K Id : Type) where
  -- openSession
  | store (k : K) (id : Id)
  | sent (k : K)
  | sendRefused (k : K)
  | deleteRefused (k : K)
  | closeRefused (k : K)
  -- BrokerConnection.close
  | closeBegin
  | rangeStart
  | visit (id : Id) (x : BrokerSession K)
  | rangeDelete
  | rangeClose
  | rangeEnd
  | clearConn
  -- writeLoop
  | written
  deriving DecidableEq, Repr

def ClosePc.mapScan {K Id : Type} (f : Scan Id (BrokerSession K) → Scan Id (BrokerSession K)) :
    ClosePc K Id → ClosePc K Id
  | .scanning r => .scanning (r.mapScan f)
  | .deleting r id x => .deleting (r.mapScan f) id x
  | .closing r x => .closing (r.mapScan f) x
  | pc => pc

variable {K Id : Type} [DecidableEq K] [DecidableEq Id]

/-- `c.done` is closed. -/
def linkDone (s : State K Id) : Bool := s.close ≠ .notCalled

def setOpen (s : State K Id) (k : K) (pc : OpenPc Id) : State K Id :=
  { s with opens := Function.update s.opens k pc }

/-- The new session, its `done` channel open, goes into the map. -/
def store (s : State K Id) (k : K) (id : Id) : State K Id :=
  { s with
    sessions := SyncMap.store s.sessions id ⟨k, s.serial⟩
    serial := s.serial + 1
    used := id :: s.used
    opens := Function.update s.opens k (.stored id s.serial)
    done := Function.update s.done k false
    close := s.close.mapScan (·.onStore id ⟨k, s.serial⟩) }

def step (s : State K Id) : Event K Id → Option (State K Id)
  | .store k id => if s.opens k = .notCalled then some (store s k id) else none
  | .sent k =>
    match s.opens k with
    | .stored id n =>
      if s.writeCh.queue.length < writeQueueSize then
        some { setOpen s k (.returned id n) with writeCh := s.writeCh.push id }
      else none
    | _ => none
  | .sendRefused k =>
    match s.opens k with
    | .stored id _ => if linkDone s then some (setOpen s k (.refused id)) else none
    | _ => none
  | .deleteRefused k =>
    match s.opens k with
    | .refused id =>
      some { setOpen s k .closing with
        sessions := SyncMap.delete s.sessions id
        close := s.close.mapScan (·.onDelete id) }
    | _ => none
  | .closeRefused k =>
    if s.opens k = .closing then
      some { setOpen s k .failed with done := Function.update s.done k true }
    else none
  | .closeBegin => if s.close = .notCalled then some { s with close := .doneClosed } else none
  | .rangeStart =>
    if s.close = .doneClosed then
      some { s with close := .scanning ⟨Scan.start s.sessions, s.serial⟩ }
    else none
  | .visit id x =>
    match s.close with
    | .scanning r =>
      (r.scan.visit s.sessions id x).map
        (fun d => { s with close := .deleting { r with scan := d } id x })
    | _ => none
  | .rangeDelete =>
    match s.close with
    | .deleting r id x =>
      some { s with
        sessions := SyncMap.delete s.sessions id
        close := .closing { r with scan := r.scan.onDelete id } x }
    | _ => none
  | .rangeClose =>
    match s.close with
    | .closing r x =>
      some { s with done := Function.update s.done x.call true, close := .scanning r }
    | _ => none
  | .rangeEnd =>
    match s.close with
    | .scanning r => if r.scan.ended then some { s with close := .swept } else none
    | _ => none
  | .clearConn => if s.close = .swept then some { s with close := .completed } else none
  | .written => s.writeCh.pop.map (fun r => { s with writeCh := r.2 })

/-! ## Properties -/

/-- No call has returned a session nobody will ever close. -/
def NoWaiterLeft (s : State K Id) : Prop :=
  s.close = .completed → ∀ k id n, s.opens k = .returned id n → s.done k = true

def ClosePc.cleanup : ClosePc K Id → Cleanup Id (BrokerSession K)
  | .notCalled => ⟨none, none, false⟩
  | .doneClosed => ⟨none, none, false⟩
  | .scanning r => ⟨some r, none, false⟩
  | .deleting r id _ => ⟨some r, some id, false⟩
  | .closing r _ => ⟨some r, none, false⟩
  | .swept => ⟨none, none, true⟩
  | .completed => ⟨none, none, true⟩

/-- The call has yet to send the request, or to take its session out again. -/
def AtWork (s : State K Id) (k : K) (id : Id) : Prop :=
  (∃ n, s.opens k = .stored id n) ∨ s.opens k = .refused id

/-- Ids are fresh; a request is not sent for a session that is still open once
the scan has ended, and when it ends every session stored after it began still
has its call at work. -/
def Noticed (s : State K Id) : Event K Id → Prop
  | .store _ id => id ∉ s.used
  | .sent k => s.close.cleanup.swept = true → s.done k = true
  | .rangeEnd =>
    ∀ r id x, s.close = .scanning r → load s.sessions id = some x → r.since ≤ x.serial →
      AtWork s x.call id
  | _ => True

/-! ## The invariant -/

/-- The id and serial of a session its call still stands by. -/
def OpenPc.entry : OpenPc Id → Option (Id × Nat)
  | .stored id n => some (id, n)
  | .returned id n => some (id, n)
  | _ => none

def OpenPc.id : OpenPc Id → Option Id
  | .stored id _ => some id
  | .refused id => some id
  | .returned id _ => some id
  | _ => none

/-- What the scan may assume of a binding it has been offered: its call is past
the store, stands by no other id, and nobody else stored under this one. -/
structure Offered (s : State K Id) (id : Id) (x : BrokerSession K) : Prop where
  used : id ∈ s.used
  called : s.opens x.call ≠ .notCalled
  own : ∀ i, (s.opens x.call).id = some i → i = id
  current : ∀ y, load s.sessions id = some y → y = x

omit [DecidableEq K] in
theorem Offered.frame {s t : State K Id} {id : Id} {x : BrokerSession K} (h : Offered s id x)
    (hused : t.used = s.used) (hcalled : ∀ k, s.opens k ≠ .notCalled → t.opens k ≠ .notCalled)
    (hids : ∀ k i, (t.opens k).id = some i → (s.opens k).id = some i)
    (htable : ∀ y, load t.sessions id = some y → load s.sessions id = some y) : Offered t id x where
  used := hused ▸ h.used
  called := hcalled _ h.called
  own := fun i hi => h.own i (hids _ i hi)
  current := fun y hy => h.current y (htable y hy)

structure Covered (s : State K Id) : Prop where
  functional : Functional s.sessions
  used : ∀ k id, (s.opens k).id = some id → id ∈ s.used
  unique : ∀ k k' id, (s.opens k).id = some id → (s.opens k').id = some id → k = k'
  entry : ∀ id x, load s.sessions id = some x →
    x.serial < s.serial ∧ (s.opens x.call).id = some id ∧ s.done x.call = false
  allows : ∀ id x, load s.sessions id = some x →
    s.close.cleanup.Allows BrokerSession.serial (AtWork s x.call id) id x
  since : ∀ r, s.close.cleanup.sweep = some r → r.since ≤ s.serial
  offers : ∀ r, s.close.cleanup.sweep = some r → ∀ id x, (id, x) ∈ r.scan.offers → Offered s id x
  working : ∀ r id x, s.close = .deleting r id x → Offered s id x
  closing : ∀ r x, s.close = .closing r x →
    s.opens x.call ≠ .notCalled ∧ ∀ i y, load s.sessions i = some y → y.call ≠ x.call
  kept : ∀ k id n, (s.opens k).entry = some (id, n) → s.done k = false →
    load s.sessions id = some ⟨k, n⟩ ∨ ∃ r, s.close = .closing r ⟨k, n⟩

omit [DecidableEq K] in
theorem covered_initial : Covered (initial K Id) where
  functional := functional_nil
  used := fun k id h => by cases h
  unique := fun k k' id h => by cases h
  entry := fun id x h => by cases h
  allows := fun id x h => by cases h
  since := fun r h => by cases h
  offers := fun r h => by cases h
  working := fun r id x h => by cases h
  closing := fun r x h => by cases h
  kept := fun k id n h => by cases h

variable {s t : State K Id} {k : K} {id : Id} {x : BrokerSession K}

omit [DecidableEq Id] in
theorem entry_id {pc : OpenPc Id} {n : Nat} (h : pc.entry = some (id, n)) : pc.id = some id := by
  cases pc <;> simp_all [OpenPc.entry, OpenPc.id]

section

omit [DecidableEq K] [DecidableEq Id]

@[simp] theorem cleanup_mapScan (f : Scan Id (BrokerSession K) → Scan Id (BrokerSession K))
    (pc : ClosePc K Id) : (pc.mapScan f).cleanup = pc.cleanup.mapScan f := by
  cases pc <;> rfl

theorem mapScan_deleting {f : Scan Id (BrokerSession K) → Scan Id (BrokerSession K)}
    {pc : ClosePc K Id} {r : Sweep Id (BrokerSession K)} (h : pc.mapScan f = .deleting r id x) :
    ∃ r', pc = .deleting r' id x := by
  cases pc <;> cases h
  exact ⟨_, rfl⟩

theorem mapScan_closing {f : Scan Id (BrokerSession K) → Scan Id (BrokerSession K)}
    {pc : ClosePc K Id} {r : Sweep Id (BrokerSession K)} (h : pc.mapScan f = .closing r x) :
    ∃ r', pc = .closing r' x := by
  cases pc <;> cases h
  exact ⟨_, rfl⟩

end

omit [DecidableEq K] in
/-- After the scan, a returned session that is still open is still in the map,
where only a call at work may leave one. -/
theorem Covered.noWaiterLeft (hi : Covered s) : NoWaiterLeft s := by
  intro hc k id n hk
  by_contra hd
  rcases hi.kept k id n (by rw [hk]; rfl) (by simpa using hd) with hl | ⟨r, hr⟩
  · have ha := (hi.allows id _ hl).swept (by rw [hc]; rfl)
    rcases ha with ⟨m, ha⟩ | ha <;> rw [hk] at ha <;> cases ha
  · rw [hc] at hr
    cases hr

omit [DecidableEq K] in
/-- `close` moves on without touching the map. -/
theorem Covered.setClose (hi : Covered s) {pc : ClosePc K Id}
    (hold : ∀ r y, s.close ≠ .closing r y)
    (hsince : ∀ r, pc.cleanup.sweep = some r → r.since ≤ s.serial)
    (hallows : ∀ id x, load s.sessions id = some x →
      pc.cleanup.Allows BrokerSession.serial (AtWork s x.call id) id x)
    (hoffers : ∀ r, pc.cleanup.sweep = some r → ∀ id x, (id, x) ∈ r.scan.offers → Offered s id x)
    (hworking : ∀ r id x, pc = .deleting r id x → Offered s id x)
    (hclosing : ∀ r x, pc ≠ .closing r x) :
    Covered { s with close := pc } where
  functional := hi.functional
  used := hi.used
  unique := hi.unique
  entry := hi.entry
  allows := hallows
  since := hsince
  offers := fun r hr id x hm =>
    ⟨(hoffers r hr id x hm).used, (hoffers r hr id x hm).called, (hoffers r hr id x hm).own,
      (hoffers r hr id x hm).current⟩
  working := fun r id x hw =>
    ⟨(hworking r id x hw).used, (hworking r id x hw).called, (hworking r id x hw).own,
      (hworking r id x hw).current⟩
  closing := fun r x hc => absurd hc (hclosing r x)
  kept := fun k id n hk hd => by
    rcases hi.kept k id n hk hd with hl | ⟨r, hr⟩
    · exact Or.inl hl
    · exact absurd hr (hold r _)

theorem covered_store (hi : Covered s) (hC : Noticed s (.store k id))
    (h : step s (.store k id) = some t) : Covered t := by
  simp only [step] at h
  split at h
  · rename_i hk
    cases h
    have hfresh : ∀ k', (s.opens k').id ≠ some id := fun k' he => hC (hi.used k' id he)
    have hself : Function.update s.opens k (.stored id s.serial) k = .stored id s.serial :=
      Function.update_self _ _ _
    have hpc : ∀ {k'}, k' ≠ k → Function.update s.opens k (.stored id s.serial) k' = s.opens k' :=
      fun hne => Function.update_of_ne hne _ _
    have hold : ∀ {i y}, load s.sessions i = some y → y.call ≠ k := by
      intro i y hl hy
      have he := (hi.entry i y hl).2.1
      rw [hy, hk] at he
      cases he
    have hoffered : ∀ {i y}, Offered s i y → Offered (store s k id) i y := by
      intro i y ho
      have hne : y.call ≠ k := fun he => ho.called (he ▸ hk)
      have hy : (store s k id).opens y.call = s.opens y.call := hpc hne
      refine ⟨List.mem_cons_of_mem _ ho.used, ?_, ?_, fun z hz => ?_⟩
      · rw [hy]
        exact ho.called
      · rw [hy]
        exact ho.own
      · rcases load_of_store hz with ⟨rfl, -⟩ | ⟨-, hz⟩
        · exact absurd ho.used hC
        · exact ho.current z hz
    constructor
    case functional => exact hi.functional.store _ _
    case used =>
      intro k' i he
      dsimp only [store] at he ⊢
      by_cases hk' : k' = k
      · rw [hk', hself] at he
        cases he
        exact List.mem_cons_self
      · rw [hpc hk'] at he
        exact List.mem_cons_of_mem _ (hi.used k' i he)
    case unique =>
      intro k₁ k₂ i h₁ h₂
      dsimp only [store] at h₁ h₂
      by_cases hk₁ : k₁ = k <;> by_cases hk₂ : k₂ = k
      · rw [hk₁, hk₂]
      · rw [hk₁, hself] at h₁
        rw [hpc hk₂] at h₂
        cases h₁
        exact absurd h₂ (hfresh k₂)
      · rw [hk₂, hself] at h₂
        rw [hpc hk₁] at h₁
        cases h₂
        exact absurd h₁ (hfresh k₁)
      · rw [hpc hk₁] at h₁
        rw [hpc hk₂] at h₂
        exact hi.unique k₁ k₂ i h₁ h₂
    case entry =>
      intro i y hl
      dsimp only [store]
      rcases load_of_store hl with ⟨rfl, rfl⟩ | ⟨-, hl⟩
      · rw [hself, Function.update_self]
        exact ⟨Nat.lt_succ_self _, rfl, rfl⟩
      · obtain ⟨hlt, he, hd⟩ := hi.entry i y hl
        rw [hpc (hold hl), Function.update_of_ne (hold hl)]
        exact ⟨Nat.lt_succ_of_lt hlt, he, hd⟩
    case allows =>
      intro i y hl
      dsimp only [store]
      rw [cleanup_mapScan]
      rcases load_of_store hl with ⟨rfl, rfl⟩ | ⟨hne, hl⟩
      · exact Cleanup.Allows.of_new (fun r hr => hi.since r hr) (Or.inl ⟨_, hself⟩)
      · refine ((hi.allows i y hl).onStore hne).mono fun ho => ?_
        simp only [AtWork, hpc (hold hl)]
        exact ho
    case since =>
      intro r hr
      dsimp only [store] at hr
      rw [cleanup_mapScan] at hr
      obtain ⟨r, hc, rfl⟩ := Option.map_eq_some_iff.mp hr
      exact Nat.le_succ_of_le (hi.since r hc)
    case offers =>
      intro r hr i y hm
      dsimp only [store] at hr
      rw [cleanup_mapScan] at hr
      obtain ⟨r, hc, rfl⟩ := Option.map_eq_some_iff.mp hr
      rcases List.mem_cons.mp hm with he | hm
      · cases he
        refine ⟨List.mem_cons_self, ?_, ?_, ?_⟩ <;> dsimp only [store]
        · rw [hself]
          exact nofun
        · intro j hj
          rw [hself] at hj
          exact (Option.some.inj hj).symm
        · intro z hz
          rw [load_store_self] at hz
          exact (Option.some.inj hz).symm
      · exact hoffered (hi.offers r hc i y hm)
    case working =>
      intro r i y hw
      obtain ⟨r', hc⟩ := mapScan_deleting hw
      exact hoffered (hi.working r' i y hc)
    case closing =>
      intro r y hw
      obtain ⟨r', hc⟩ := mapScan_closing hw
      obtain ⟨hn, hy⟩ := hi.closing r' y hc
      have hne : y.call ≠ k := fun he => hn (he ▸ hk)
      dsimp only [store]
      rw [hpc hne]
      refine ⟨hn, fun i z hz => ?_⟩
      rcases load_of_store hz with ⟨-, rfl⟩ | ⟨-, hz⟩
      · exact Ne.symm hne
      · exact hy i z hz
    case kept =>
      intro k' i n he hd
      dsimp only [store] at he hd ⊢
      by_cases hk' : k' = k
      · rw [hk', hself] at he
        cases he
        rw [hk', load_store_self]
        exact Or.inl rfl
      · rw [hpc hk'] at he
        rw [Function.update_of_ne hk'] at hd
        rcases hi.kept k' i n he hd with hl | ⟨r, hr⟩
        · have hne : i ≠ id := fun hc => hfresh k' (hc ▸ entry_id he)
          rw [load_store_other _ _ hne]
          exact Or.inl hl
        · rw [hr]
          exact Or.inr ⟨_, rfl⟩
  · cases h

/-- A call moves on, keeping its id, and the map stays as it is. -/
theorem Covered.setOpen (hi : Covered s) {pc : OpenPc Id} {q : Fifo Id}
    (hnew : pc ≠ .notCalled) (hid : pc.id = (s.opens k).id) (hentry : pc.entry = none ∨ pc.entry = (s.opens k).entry)
    (hwork : ∀ id x, load s.sessions id = some x → x.call = k → s.close.cleanup.swept = true →
      pc = .refused id) :
    Covered { setOpen s k pc with writeCh := q } := by
  have hself : Function.update s.opens k pc k = pc := Function.update_self _ _ _
  have hother : ∀ {k'}, k' ≠ k → Function.update s.opens k pc k' = s.opens k' :=
    fun hne => Function.update_of_ne hne _ _
  have hids : ∀ k', (Function.update s.opens k pc k').id = (s.opens k').id := by
    intro k'
    by_cases hk : k' = k
    · rw [hk, hself, hid]
    · rw [hother hk]
  have hcalled : ∀ k', s.opens k' ≠ .notCalled → Function.update s.opens k pc k' ≠ .notCalled := by
    intro k' hn
    by_cases hk : k' = k
    · rw [hk, hself]
      exact hnew
    · rw [hother hk]
      exact hn
  have hoffered : ∀ {i y}, Offered s i y →
      Offered { SplitProxy.OpenSession.setOpen s k pc with writeCh := q } i y :=
    fun ho => ho.frame rfl hcalled (fun k' i hk => (hids k').symm.trans hk) fun _ hz => hz
  refine ⟨hi.functional, ?_, ?_, ?_, ?_, hi.since, fun r hr i y hm => hoffered (hi.offers r hr i y hm),
    fun r i y hw => hoffered (hi.working r i y hw),
    fun r y hc => ⟨hcalled _ (hi.closing r y hc).1, (hi.closing r y hc).2⟩, ?_⟩
  · intro k' i he
    exact hi.used k' i ((hids k').symm.trans he)
  · intro k₁ k₂ i h₁ h₂
    exact hi.unique k₁ k₂ i ((hids k₁).symm.trans h₁) ((hids k₂).symm.trans h₂)
  · intro i y hl
    obtain ⟨hlt, he, hd⟩ := hi.entry i y hl
    exact ⟨hlt, (hids y.call).trans he, hd⟩
  · intro i y hl
    have ha := hi.allows i y hl
    refine ⟨ha.sweep, fun hv => ?_⟩
    simp only [AtWork, SplitProxy.OpenSession.setOpen]
    by_cases hk : y.call = k
    · rw [hk, hself]
      exact Or.inr (hwork i y hl hk hv)
    · rw [hother hk]
      exact ha.swept hv
  · intro k' i n he hd
    simp only [SplitProxy.OpenSession.setOpen] at he hd ⊢
    by_cases hk : k' = k
    · rw [hk, hself] at he
      rcases hentry with hn | hn
      · rw [hn] at he
        cases he
      · rw [hn] at he
        rw [hk] at hd ⊢
        exact hi.kept k i n he hd
    · rw [hother hk] at he
      exact hi.kept k' i n he hd

/-- A refused call takes its own entry out. -/
theorem covered_deleteRefused (hi : Covered s) (h : step s (.deleteRefused k) = some t) :
    Covered t := by
  simp only [step] at h
  split at h
  · rename_i id hk
    cases h
    have hself : Function.update s.opens k .closing k = .closing := Function.update_self _ _ _
    have hother : ∀ {k'}, k' ≠ k → Function.update s.opens k .closing k' = s.opens k' :=
      fun hne => Function.update_of_ne hne _ _
    -- the entry under `id` could only be the call's own
    have hold : ∀ {i y}, i ≠ id → load s.sessions i = some y → y.call ≠ k := by
      intro i y hne hl hy
      have he := (hi.entry i y hl).2.1
      rw [hy, hk] at he
      cases he
      exact hne rfl
    have hids : ∀ {k' i}, (Function.update s.opens k .closing k').id = some i →
        k' ≠ k ∧ (s.opens k').id = some i := by
      intro k' i he
      by_cases hk' : k' = k
      · rw [hk', hself] at he
        cases he
      · rw [hother hk'] at he
        exact ⟨hk', he⟩
    have hcalled : ∀ k', s.opens k' ≠ .notCalled →
        Function.update s.opens k .closing k' ≠ .notCalled := by
      intro k' hn
      by_cases hk' : k' = k
      · rw [hk', hself]
        exact nofun
      · rw [hother hk']
        exact hn
    have hoffered : ∀ {i y}, Offered s i y → Offered { setOpen s k .closing with
        sessions := SyncMap.delete s.sessions id
        close := s.close.mapScan (·.onDelete id) } i y :=
      fun ho => ho.frame rfl hcalled (fun _ _ hk => (hids hk).2) fun _ hz => (load_of_delete hz).2
    constructor
    case functional => exact hi.functional.delete id
    case used => exact fun k' i he => hi.used k' i (hids he).2
    case unique => exact fun k₁ k₂ i h₁ h₂ => hi.unique k₁ k₂ i (hids h₁).2 (hids h₂).2
    case entry =>
      intro i y hl
      obtain ⟨hne, hl⟩ := load_of_delete hl
      dsimp only [setOpen]
      rw [hother (hold hne hl)]
      exact hi.entry i y hl
    case allows =>
      intro i y hl
      obtain ⟨hne, hl⟩ := load_of_delete hl
      dsimp only
      rw [cleanup_mapScan]
      refine ((hi.allows i y hl).onDelete hne).mono fun ho => ?_
      simp only [AtWork, setOpen, hother (hold hne hl)]
      exact ho
    case since =>
      intro r hr
      dsimp only at hr
      rw [cleanup_mapScan] at hr
      obtain ⟨r, hc, rfl⟩ := Option.map_eq_some_iff.mp hr
      exact hi.since r hc
    case offers =>
      intro r hr i y hm
      dsimp only at hr
      rw [cleanup_mapScan] at hr
      obtain ⟨r, hc, rfl⟩ := Option.map_eq_some_iff.mp hr
      exact hoffered (hi.offers r hc i y hm)
    case working =>
      intro r i y hw
      obtain ⟨r', hc⟩ := mapScan_deleting hw
      exact hoffered (hi.working r' i y hc)
    case closing =>
      intro r y hw
      obtain ⟨r', hc⟩ := mapScan_closing hw
      obtain ⟨hn, hy⟩ := hi.closing r' y hc
      exact ⟨hcalled _ hn, fun i z hz => hy i z (load_of_delete hz).2⟩
    case kept =>
      intro k' i n he hd
      dsimp only [setOpen] at he hd ⊢
      obtain ⟨hk', hid⟩ := hids (entry_id he)
      rw [hother hk'] at he
      have hne : i ≠ id := by
        rintro rfl
        exact hk' (hi.unique k' k i hid (by rw [hk]; rfl))
      rcases hi.kept k' i n he hd with hl | ⟨r, hr⟩
      · rw [load_delete_other _ hne]
        exact Or.inl hl
      · rw [hr]
        exact Or.inr ⟨_, rfl⟩
  · cases h

/-- The scan takes one entry out and closes its session next. -/
theorem covered_rangeDelete (hi : Covered s) (h : step s .rangeDelete = some t) : Covered t := by
  simp only [step] at h
  split at h
  · rename_i r id x hc
    cases h
    have hx := hi.working r id x hc
    constructor
    case functional => exact hi.functional.delete id
    case used => exact hi.used
    case unique => exact hi.unique
    case entry => exact fun i y hl => hi.entry i y (load_of_delete hl).2
    case allows =>
      intro i y hl
      obtain ⟨hne, hl⟩ := load_of_delete hl
      have ha := hi.allows i y hl
      rw [hc] at ha
      exact ha.deleted hne
    case since =>
      intro r' hr'
      cases hr'
      exact hi.since r (by rw [hc]; rfl)
    case offers =>
      intro r' hr' i y hm
      cases hr'
      exact (hi.offers r (by rw [hc]; rfl) i y hm).frame rfl (fun _ h => h) (fun _ _ h => h)
        fun z hz => (load_of_delete hz).2
    case working => exact fun r' i y hw => by cases hw
    case closing =>
      intro r' y hw
      cases hw
      refine ⟨hx.called, fun i z hz hzx => ?_⟩
      obtain ⟨hne, hz⟩ := load_of_delete hz
      exact hne (hx.own i (hzx ▸ (hi.entry i z hz).2.1))
    case kept =>
      intro k' i n he hd
      rcases hi.kept k' i n he hd with hl | ⟨r', hr'⟩
      · by_cases hne : i = id
        · subst hne
          rw [← hx.current _ hl]
          exact Or.inr ⟨_, rfl⟩
        · dsimp only
          rw [load_delete_other _ hne]
          exact Or.inl hl
      · rw [hc] at hr'
        cases hr'
  · cases h

theorem covered_rangeClose (hi : Covered s) (h : step s .rangeClose = some t) : Covered t := by
  simp only [step] at h
  split at h
  · rename_i r x hc
    cases h
    have hfree := (hi.closing r x hc).2
    constructor
    case functional => exact hi.functional
    case used => exact hi.used
    case unique => exact hi.unique
    case entry =>
      intro i y hl
      dsimp only
      rw [Function.update_of_ne (hfree i y hl)]
      exact hi.entry i y hl
    case allows =>
      intro i y hl
      have ha := hi.allows i y hl
      rw [hc] at ha
      exact ha
    case since =>
      intro r' hr'
      cases hr'
      exact hi.since r (by rw [hc]; rfl)
    case offers =>
      intro r' hr' i y hm
      cases hr'
      exact (hi.offers r (by rw [hc]; rfl) i y hm).frame rfl (fun _ h => h) (fun _ _ h => h)
        fun _ hz => hz
    case working => exact fun r' i y hw => by cases hw
    case closing => exact fun r' y hw => by cases hw
    case kept =>
      intro k' i n he hd
      dsimp only at hd
      by_cases hk : k' = x.call
      · rw [hk, Function.update_self] at hd
        cases hd
      · rw [Function.update_of_ne hk] at hd
        rcases hi.kept k' i n he hd with hl | ⟨r', hr'⟩
        · exact Or.inl hl
        · rw [hc] at hr'
          cases hr'
          exact absurd rfl hk
  · cases h

/-- A refused call ends: the map holds no entry of it. -/
theorem covered_closeRefused (hi : Covered s) (h : step s (.closeRefused k) = some t) :
    Covered t := by
  simp only [step] at h
  split at h
  · rename_i hk
    cases h
    have hs : Covered (setOpen s k .failed) :=
      @Covered.setOpen _ _ _ _ s k hi .failed s.writeCh nofun (by rw [hk]; rfl) (Or.inl rfl)
        fun i y hl hy _ => by
          have he := (hi.entry i y hl).2.1
          rw [hy, hk] at he
          cases he
    have hk' : (setOpen s k .failed).opens k = .failed := Function.update_self _ _ _
    have hne : ∀ {i y}, load s.sessions i = some y → y.call ≠ k := by
      intro i y hl hy
      have he := (hs.entry i y hl).2.1
      rw [hy, hk'] at he
      cases he
    refine ⟨hs.functional, hs.used, hs.unique, ?_, hs.allows, hs.since, ?_, ?_, hs.closing, ?_⟩
    · intro i y hl
      dsimp only
      rw [Function.update_of_ne (hne hl)]
      exact hs.entry i y hl
    · exact fun r hr i y hm => (hs.offers r hr i y hm).frame rfl (fun _ h => h) (fun _ _ h => h)
        fun _ hz => hz
    · exact fun r i y hw => (hs.working r i y hw).frame rfl (fun _ h => h) (fun _ _ h => h)
        fun _ hz => hz
    · intro k'' i n he hd
      dsimp only at hd
      by_cases hkk : k'' = k
      · rw [show k'' = k from hkk] at he
        rw [show ({ setOpen s k .failed with done := Function.update s.done k true } :
          State K Id).opens k = .failed from hk'] at he
        cases he
      · rw [Function.update_of_ne hkk] at hd
        exact hs.kept k'' i n he hd
  · cases h

theorem covered_step {e : Event K Id} (hi : Covered s) (hC : Noticed s e)
    (h : step s e = some t) : Covered t := by
  cases e with
  | store k id => exact covered_store hi hC h
  | deleteRefused k => exact covered_deleteRefused hi h
  | closeRefused k => exact covered_closeRefused hi h
  | rangeDelete => exact covered_rangeDelete hi h
  | rangeClose => exact covered_rangeClose hi h
  | sent k =>
    simp only [step] at h
    split at h
    · rename_i id n hk
      split at h
      · cases h
        refine hi.setOpen nofun (by rw [hk]; rfl) (Or.inr (by rw [hk]; rfl)) fun i y hl hy hv => ?_
        have hd := (hi.entry i y hl).2.2
        rw [hy, hC hv] at hd
        cases hd
      · cases h
    · cases h
  | sendRefused k =>
    simp only [step] at h
    split at h
    · rename_i id n hk
      split at h
      · cases h
        refine hi.setOpen nofun (by rw [hk]; rfl) (Or.inl rfl) fun i y hl hy _ => ?_
        have he := (hi.entry i y hl).2.1
        rw [hy, hk] at he
        cases he
        rfl
      · cases h
    · cases h
  | closeBegin =>
    simp only [step] at h
    split at h
    · rename_i hc
      cases h
      exact hi.setClose (fun r y hr => by rw [hc] at hr; cases hr) nofun
        (fun _ _ _ => ⟨nofun, nofun⟩) nofun nofun nofun
    · cases h
  | rangeStart =>
    simp only [step] at h
    split at h
    · rename_i hc
      cases h
      refine hi.setClose (fun r y hr => by rw [hc] at hr; cases hr) ?_ (fun i y hl => .start hl)
        ?_ nofun nofun
      · intro r hr
        cases hr
        exact Nat.le_refl _
      · intro r hr i y hm
        cases hr
        have hl := hi.functional i y hm
        have he := (hi.entry i y hl).2.1
        refine ⟨hi.used _ i he, ?_, fun j hj => ?_, fun z hz => ?_⟩
        · intro hn
          rw [hn] at he
          cases he
        · rw [he] at hj
          exact (Option.some.inj hj).symm
        · rw [hl] at hz
          exact (Option.some.inj hz).symm
    · cases h
  | visit id x =>
    simp only [step] at h
    split at h
    · rename_i r hc
      obtain ⟨d, hv, rfl⟩ := Option.map_eq_some_iff.mp h
      have hoff := hi.offers r (by rw [hc]; rfl)
      obtain ⟨hm, hd⟩ := Scan.visit_offered hv
      refine hi.setClose (fun r y hr => by rw [hc] at hr; cases hr) ?_ ?_ ?_ ?_ nofun
      · intro r' hr'
        cases hr'
        exact hi.since r (by rw [hc]; rfl)
      · intro i y hl
        have ha := hi.allows i y hl
        rw [hc] at ha
        exact ha.visit hv
      · intro r' hr' i y hy
        cases hr'
        rw [hd] at hy
        exact hoff i y hy
      · intro r' i y hw
        cases hw
        exact hoff id x hm
    · cases h
  | rangeEnd =>
    simp only [step] at h
    split at h
    · rename_i r hc
      split at h
      · rename_i hend
        cases h
        refine hi.setClose (fun r y hr => by rw [hc] at hr; cases hr) nofun ?_ nofun nofun nofun
        intro i y hl
        have ha := hi.allows i y hl
        rw [hc] at ha
        exact ⟨nofun, fun _ => ha.ended hend (hC r i y hc hl)⟩
      · cases h
    · cases h
  | clearConn =>
    simp only [step] at h
    split at h
    · rename_i hc
      cases h
      refine hi.setClose (fun r y hr => by rw [hc] at hr; cases hr) nofun ?_ nofun nofun nofun
      intro i y hl
      have ha := hi.allows i y hl
      rw [hc] at ha
      exact ⟨nofun, ha.swept⟩
    · cases h
  | written =>
    simp only [step] at h
    obtain ⟨r, hr, rfl⟩ := Option.map_eq_some_iff.mp h
    exact ⟨hi.functional, hi.used, hi.unique, hi.entry, hi.allows, hi.since,
      fun r hr i y hm => (hi.offers r hr i y hm).frame rfl (fun _ h => h) (fun _ _ h => h)
        fun _ hz => hz,
      fun r i y hw => (hi.working r i y hw).frame rfl (fun _ h => h) (fun _ _ h => h)
        fun _ hz => hz, hi.closing, hi.kept⟩

/-- Every session an `openSession` call returned is closed once `close` is over,
in every run whose late requests are refused. -/
theorem no_waiter_left_of_noticed {es : List (Event K Id)}
    (h : Meets step Noticed (initial K Id) es) : Always step NoWaiterLeft (initial K Id) es :=
  always_of_invariant (fun _ _ _ hi hC hs => covered_step hi hC hs)
    (fun _ hi => hi.noWaiterLeft) covered_initial h

/-- A session opened in time: the scan finds and closes it. -/
def foundRun : List (Event Nat Nat) :=
  [.store 0 0, .sent 0, .closeBegin, .rangeStart, .visit 0 ⟨0, 0⟩, .rangeDelete, .rangeClose,
   .rangeEnd, .clearConn]

/-- A session stored after the scan, whose select takes the free slot in `writeCh`
although `c.done` is closed. -/
def missedRun : List (Event Nat Nat) :=
  [.closeBegin, .rangeStart, .rangeEnd, .store 0 0, .sent 0, .clearConn]

theorem no_waiter_left_found : Always step NoWaiterLeft (initial Nat Nat) foundRun := by
  refine no_waiter_left_of_noticed ?_
  have hT : ∀ {s : State Nat Nat} {e}, Noticed s e = True → Noticed s e := fun h => h ▸ trivial
  refine meets_step List.not_mem_nil rfl (meets_step nofun rfl ?_)
  refine meets_step (hT rfl) rfl (meets_step (hT rfl) rfl (meets_step (hT rfl) rfl ?_))
  refine meets_step (hT rfl) rfl (meets_step (hT rfl) rfl (meets_step ?_ rfl ?_))
  · intro r id x _ hl
    cases hl
  · exact meets_step (hT rfl) rfl (meets_nil _)

theorem waiter_left_behind :
    ∃ s, run step (initial Nat Nat) missedRun = some s ∧ ¬NoWaiterLeft s := by
  refine ⟨_, rfl, fun h => ?_⟩
  have hd := h rfl 0 0 0 rfl
  cases hd

end SplitProxy.OpenSession
