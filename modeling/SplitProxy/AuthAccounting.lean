import SplitProxy.AuthInflight
import SplitProxy.FiniteCount

/-!
# What the cache counter counts

`cacheCount` is moved apart from the map: an entry is put in before it is counted
and taken out before it is counted down. Between the two the call owes the
counter its change, and a call that may yet remove entries is at work on the bound.
-/
namespace SplitProxy.AuthStore

open Runs FiniteCount

/-- The call has put an entry in and not counted it. -/
def inserting : Pc → Bool
  | .counting => true
  | _ => false

/-- The call has taken an entry out and not counted it down. -/
def removing : Pc → Bool
  | .staleDeleted | .sweepCount | .trimCount => true
  | _ => false

/-- The call will look at the counter and, where it is too high, remove entries. -/
def bounding : Pc → Bool
  | .counting | .sweepStart | .sweeping | .sweepDelete | .sweepCount | .trimming | .trimRange
  | .trimDelete | .trimCount => true
  | _ => false

/-- What the call owes the counter. -/
def owed (p : Pc) : Int := (removing p).toNat - (inserting p).toNat

/-- The places where the cache has an entry. -/
def present (s : State) (key : CacheKey) : Bool := (s.cache key).isSome

/-- The calls at a point of this kind. -/
def callsAt (f : Pc → Bool) (s : State) (i : CallId) : Bool := f (s.calls i).pc

/-- The number of entries in the cache. -/
noncomputable def entries (s : State) : Nat := count (present s)

/-- Some other call is at work on the bound. -/
def OtherBounds (s : State) (i : CallId) : Prop := ∃ j, j ≠ i ∧ bounding (s.calls j).pc = true

/-- An entry that is overwritten is still there, and a round of trimming that removes
nothing leaves no more entries than there may be, or leaves them to another call. -/
def KeepsCount (H : Hashes) (s : State) : Event → Prop
  | .store i => (s.calls i).pc = .overwriting → present s (cacheKey H (s.calls i)) = true
  | .trimDelete i => (s.calls i).pc = .trimDelete → present s (s.calls i).sweepKey = false →
      (entries s : Int) ≤ authCacheMaxEntries ∨ OtherBounds s i
  | .trimNone i => (s.calls i).pc = .trimRange →
      (entries s : Int) ≤ authCacheMaxEntries ∨ OtherBounds s i
  | _ => True

/-- No call is in progress. -/
def Quiet (s : State) : Prop := ∀ i, (s.calls i).pc = .absent ∨ (s.calls i).pc = .returned

/-- When no call is in progress the counter is right, the cache within its bound and
nothing in flight. -/
def Settled (s : State) : Prop :=
  Quiet s → (Holds (present s)).Finite ∧ s.cacheCount = entries s ∧
    s.cacheCount ≤ authCacheMaxEntries ∧ ∀ key, s.inflight key = none

variable {H : Hashes} {s t : State} {e : Event} {i : CallId} {c : Call} {d : Int}

/-! ## What one step does to the cache and the counter -/

/-- The cache keeps its entries, gains one or loses one. -/
inductive Change (s t : State) : Int → Prop
  | same (h : ∀ key, present t key = present s key) : Change s t 0
  | gained (key : CacheKey) (hs : present s key = false)
      (ht : present t = Function.update (present s) key true) : Change s t 1
  | lost (key : CacheKey) (hs : present s key = true)
      (ht : present t = Function.update (present s) key false) : Change s t (-1)

theorem Change.entries (h : Change s t d) (hf : (Holds (present s)).Finite) :
    (Holds (present t)).Finite ∧ (entries t : Int) = entries s + d := by
  cases h with
  | same h =>
    have he : present t = present s := funext h
    simp [AuthStore.entries, he, hf]
  | gained key hs ht =>
    have hc := count_update hf key true
    rw [hs] at hc
    refine ⟨ht ▸ finite_update hf key true, ?_⟩
    rw [AuthStore.entries, AuthStore.entries, ht]
    simp only [Bool.toNat_false, Bool.toNat_true] at hc
    omega
  | lost key hs ht =>
    have hc := count_update hf key false
    rw [hs] at hc
    refine ⟨ht ▸ finite_update hf key false, ?_⟩
    rw [AuthStore.entries, AuthStore.entries, ht]
    simp only [Bool.toNat_false, Bool.toNat_true] at hc
    omega

/-- A step of call `i`: the counter follows the cache but for what the call owes. -/
structure Moves (s t : State) (i : CallId) (c : Call) (d : Int) : Prop where
  calls : t.calls = Function.update s.calls i c
  change : Change s t d
  counter : t.cacheCount - s.cacheCount = d + owed c.pc - owed (s.calls i).pc
  /-- a new entry is yet to be counted -/
  gains : d = 1 → bounding c.pc = true
  /-- the bound is left alone when it holds or is another call's work -/
  leaves : bounding (s.calls i).pc = true → bounding c.pc = true ∨
    t.cacheCount ≤ authCacheMaxEntries ∨ (entries s : Int) ≤ authCacheMaxEntries ∨ OtherBounds s i

theorem present_update (s : State) (key : CacheKey) (entry : CacheEntry) :
    (fun k => (Function.update s.cache key (some entry) k).isSome) =
      Function.update (present s) key true := by
  funext k
  by_cases hk : k = key
  · subst hk
    simp
  · simp [present, hk]

/-- Moving from `p` to `q` is no matter of the counter. -/
def passes (p q : Pc) : Bool := owed q == owed p && (!bounding p || bounding q)

theorem moves_passing {p : Pc} (hp : (s.calls i).pc = p) (hc : t.calls = Function.update s.calls i c)
    (ht : t.cache = s.cache) (hn : t.cacheCount = s.cacheCount) (hq : passes p c.pc = true) :
    Moves s t i c 0 := by
  simp only [passes, Bool.and_eq_true, beq_iff_eq, Bool.or_eq_true, Bool.not_eq_true'] at hq
  obtain ⟨howed, hbound⟩ := hq
  refine ⟨hc, .same fun key => by rw [present, present, ht], ?_, fun h => absurd h (by decide),
    fun hb => ?_⟩
  · rw [hn, hp, howed]
    omega
  · rw [hp] at hb
    rw [hb] at hbound
    exact Or.inl (hbound.resolve_left (by decide))

/-- `LoadAndDelete` takes an entry and owes it to the counter, or finds none. -/
theorem moves_loadAndDelete {key : CacheKey} {p deleted missed : Pc} (hp : (s.calls i).pc = p)
    (hd : owed deleted = owed p + 1) (hb : bounding p = true → bounding deleted = true)
    (hm : owed missed = owed p) (hmiss : present s key = false → bounding p = true →
      bounding missed = true ∨ (entries s : Int) ≤ authCacheMaxEntries ∨ OtherBounds s i) :
    ∃ c d, Moves s (loadAndDelete s i key deleted missed) i c d := by
  unfold loadAndDelete
  cases hk : s.cache key with
  | some entry =>
    refine ⟨_, -1, rfl, .lost key (by rw [present, hk]; rfl) ?_, ?_, fun h => absurd h (by decide),
      fun h => ?_⟩
    · funext k
      by_cases hkk : k = key
      · subst hkk
        simp [present]
      · simp [present, hkk]
    · simp only [setCall, hp, hd]
      omega
    · exact Or.inl (hb (hp ▸ h))
  | none =>
    refine ⟨_, 0, rfl, .same fun _ => rfl, ?_, fun h => absurd h (by decide), fun h => ?_⟩
    · simp only [setCall, hp, hm]
      omega
    · rcases hmiss (by rw [present, hk]; rfl) (hp ▸ h) with h | h
      · exact Or.inl h
      · exact Or.inr (Or.inr h)

theorem moves_countDown {p pc : Pc} (hp : (s.calls i).pc = p) (hq : owed pc = owed p - 1)
    (hb : bounding p = true → bounding pc = true) : ∃ c d, Moves s (countDown s i pc) i c d := by
  refine ⟨_, 0, rfl, .same fun _ => rfl, ?_, fun h => absurd h (by decide),
    fun h => Or.inl (hb (hp ▸ h))⟩
  simp only [countDown, setCall, hp, hq]
  omega

theorem moves_of_step (ha : actor e = some i) (hC : KeepsCount H s e) (h : step H s e = some t) :
    t = s ∨ ∃ c d, Moves s t i c d := by
  cases e with
  | call j u p =>
    cases ha
    simp only [step] at h
    split at h <;> cases h
    exact Or.inr ⟨_, _, moves_passing ‹_› rfl rfl rfl rfl⟩
  | loadUsers j =>
    cases ha
    simp only [step] at h
    split at h
    · split at h <;> cases h <;> exact Or.inr ⟨_, _, moves_passing ‹_› rfl rfl rfl rfl⟩
    · cases h
  | cacheLoad j =>
    cases ha
    simp only [step] at h
    split at h
    · rename_i hpc
      split at h
      · cases h
        exact Or.inr ⟨_, _, moves_passing hpc rfl rfl rfl rfl⟩
      · split at h <;> cases h <;> exact Or.inr ⟨_, _, moves_passing hpc rfl rfl rfl rfl⟩
    · cases h
  | lookup j =>
    cases ha
    simp only [step] at h
    split at h
    · rename_i hpc
      split at h <;> cases h <;> exact Or.inr ⟨_, _, moves_passing hpc rfl rfl rfl rfl⟩
    · cases h
  | wake j =>
    cases ha
    simp only [step] at h
    split at h
    · rename_i hpc
      obtain ⟨ok, -, rfl⟩ := Option.map_eq_some_iff.mp h
      exact Or.inr ⟨_, _, moves_passing hpc rfl rfl rfl rfl⟩
    · cases h
  | acquire j | trimVisit j key =>
    cases ha
    simp only [step] at h
    split at h
    · rename_i hpc
      cases h
      exact Or.inr ⟨_, _, moves_passing hpc.1 rfl rfl rfl rfl⟩
    · cases h
  | loadGeneration j | readClock j | hash j | build j | sweepBegin j | sweepEnd j | closeFlight j =>
    cases ha
    simp only [step] at h
    split at h <;> cases h
    exact Or.inr ⟨_, _, moves_passing ‹_› rfl rfl rfl rfl⟩
  | sweepVisit j key =>
    cases ha
    simp only [step] at h
    split at h
    · rename_i hpc
      split at h
      · split at h <;> cases h
        · exact Or.inr ⟨_, _, moves_passing hpc rfl rfl rfl rfl⟩
        · exact Or.inl rfl
      · cases h
    · cases h
  | staleDelete j =>
    cases ha
    simp only [step] at h
    split at h
    · rename_i hpc
      cases h
      exact Or.inr (moves_loadAndDelete hpc rfl (by decide) rfl fun _ hb => absurd hb (by decide))
    · cases h
  | sweepDelete j =>
    cases ha
    simp only [step] at h
    split at h
    · rename_i hpc
      cases h
      exact Or.inr (moves_loadAndDelete hpc rfl (by decide) rfl fun _ _ => Or.inl rfl)
    · cases h
  | trimDelete j =>
    cases ha
    simp only [step] at h
    split at h
    · rename_i hpc
      cases h
      exact Or.inr (moves_loadAndDelete hpc rfl (fun _ => rfl) rfl fun hk _ => Or.inr (hC hpc hk))
    · cases h
  | staleCount j | sweepCount j | trimCount j =>
    cases ha
    simp only [step] at h
    split at h
    · rename_i hpc
      cases h
      exact Or.inr (moves_countDown hpc rfl (by decide))
    · cases h
  | trimNone j =>
    cases ha
    simp only [step] at h
    split at h
    · rename_i hpc
      cases h
      refine Or.inr ⟨_, 0, rfl, .same fun _ => rfl, ?_, fun h => absurd h (by decide),
        fun _ => Or.inr (Or.inr (hC hpc))⟩
      rw [hpc]
      exact Int.sub_self _
    · cases h
  | loadOrStore j =>
    cases ha
    simp only [step] at h
    split at h
    · rename_i hpc
      split at h
      · cases h
        exact Or.inr ⟨_, _, moves_passing hpc rfl rfl rfl rfl⟩
      · rename_i hk
        cases h
        refine Or.inr ⟨_, 1, rfl, .gained _ (by rw [present, hk]; rfl) (present_update _ _ _), ?_,
          fun _ => rfl, fun hb => ?_⟩
        · rw [hpc]
          exact Int.sub_self _
        · rw [hpc] at hb
          cases hb
    · cases h
  | store j =>
    cases ha
    simp only [step] at h
    split at h
    · rename_i hpc
      cases h
      have hthere : Function.update (present s) (cacheKey H (s.calls i)) true = present s :=
        Function.update_eq_self_iff.mpr (hC hpc).symm
      refine Or.inr ⟨_, 0, rfl, .same fun key => ?_, ?_, fun h => absurd h (by decide), fun hb => ?_⟩
      · exact congrFun ((present_update s _ _).trans hthere) key
      · rw [hpc]
        exact Int.sub_self _
      · rw [hpc] at hb
        cases hb
    · cases h
  | count j =>
    cases ha
    simp only [step] at h
    split at h
    · rename_i hpc
      cases h
      have hcounted : owed .counting = -1 := rfl
      by_cases hle : s.cacheCount + 1 ≤ authCacheMaxEntries
      · have hclosing : owed .closing = 0 := rfl
        refine Or.inr ⟨_, 0, rfl, .same fun _ => rfl, ?_, fun h => absurd h (by decide),
          fun _ => Or.inr (Or.inl hle)⟩
        simp only [hpc, hle, ↓reduceIte, hcounted, hclosing]
        omega
      · have hsweep : owed .sweepStart = 0 := rfl
        refine Or.inr ⟨_, 0, rfl, .same fun _ => rfl, ?_, fun h => absurd h (by decide),
          fun _ => Or.inl ?_⟩
        · simp only [hpc, hle, ↓reduceIte, hcounted, hsweep]
          omega
        · simp only [hle, ↓reduceIte]
          rfl
    · cases h
  | trim j =>
    cases ha
    simp only [step] at h
    split at h
    · rename_i hpc
      cases h
      by_cases hlt : authCacheMaxEntries < s.cacheCount
      · exact Or.inr ⟨_, _, moves_passing hpc rfl rfl rfl (by simp only [hlt, ↓reduceIte]; rfl)⟩
      · refine Or.inr ⟨_, 0, rfl, .same fun _ => rfl, ?_, fun h => absurd h (by decide),
          fun _ => Or.inr (Or.inl (Int.not_lt.mp hlt))⟩
        simp only [hpc, hlt, ↓reduceIte]
        exact Int.sub_self _
    · cases h
  | usersStore r table | generationAdd r | tick d => cases ha

/-! ## The account -/

/-- The counter is the number of entries but for what the calls owe it. -/
structure Accounted (s : State) : Prop where
  present : (Holds (present s)).Finite
  removing : (Holds (callsAt removing s)).Finite
  inserting : (Holds (callsAt inserting s)).Finite
  counter : s.cacheCount =
    entries s + count (callsAt AuthStore.removing s) - count (callsAt AuthStore.inserting s)

/-- The cache is within its bound, or some call is at work on it. -/
def Bounded (s : State) : Prop :=
  (entries s : Int) ≤ authCacheMaxEntries ∨ ∃ j, bounding (s.calls j).pc = true

/-- Who is in the in-flight table is at work on its key. -/
def InFlight (H : Hashes) (s : State) : Prop :=
  ∀ key j, s.inflight key = some j → owns (s.calls j).pc = true ∧ cacheKey H (s.calls j) = key

theorem callsAt_update (f : Pc → Bool) (h : t.calls = Function.update s.calls i c) :
    callsAt f t = Function.update (callsAt f s) i (f c.pc) := by
  funext j
  by_cases hj : j = i
  · subst hj
    simp [callsAt, h]
  · simp [callsAt, h, hj]

theorem accounted_moves (hs : Accounted s) (hm : Moves s t i c d) : Accounted t := by
  obtain ⟨hfin, hentries⟩ := hm.change.entries hs.present
  have hr := count_update hs.removing i (AuthStore.removing c.pc)
  have hn := count_update hs.inserting i (AuthStore.inserting c.pc)
  rw [← callsAt_update _ hm.calls] at hr hn
  refine ⟨hfin, ?_, ?_, ?_⟩
  · rw [callsAt_update _ hm.calls]
    exact finite_update hs.removing i _
  · rw [callsAt_update _ hm.calls]
    exact finite_update hs.inserting i _
  · have hcounter := hm.counter
    have hold := hs.counter
    simp only [owed, callsAt] at hcounter hr hn
    omega

theorem bounding_of_inserting {p : Pc} (h : AuthStore.inserting p = true) : bounding p = true := by
  cases p <;> first | rfl | cases h

/-- A step that brings no entry cannot leave too many behind: either the counter was
read and it was right, or the condition on the step says so. -/
theorem bounded_moves (hs : Accounted s) (hb : Bounded s) (hm : Moves s t i c d) : Bounded t := by
  have ht := accounted_moves hs hm
  have hother : ∀ j, j ≠ i → t.calls j = s.calls j := by
    intro j hj
    rw [hm.calls, Function.update_of_ne hj]
  have hself : t.calls i = c := by rw [hm.calls, Function.update_self]
  by_cases ho : OtherBounds s i
  · obtain ⟨j, hj, hbj⟩ := ho
    exact Or.inr ⟨j, by rw [hother j hj]; exact hbj⟩
  · by_cases hc : bounding c.pc = true
    · exact Or.inr ⟨i, by rw [hself]; exact hc⟩
    · -- nobody is at work on the bound any more
      have hnone : ∀ j, callsAt AuthStore.inserting t j = false := by
        intro j
        by_contra hj
        have hbound := bounding_of_inserting (Bool.of_not_eq_false hj)
        by_cases hji : j = i
        · rw [hji, hself] at hbound
          exact hc hbound
        · rw [hother j hji] at hbound
          exact ho ⟨j, hji, hbound⟩
      have hle : (entries t : Int) ≤ entries s := by
        have hentries := (hm.change.entries hs.present).2
        have hgain := hm.gains
        cases hm.change with
        | same h => omega
        | gained key h h' => exact absurd (hgain rfl) hc
        | lost key h h' => omega
      left
      rcases hb with hb | ⟨j, hj⟩
      · omega
      · have hji : j = i := by
          by_contra hne
          exact ho ⟨j, hne, hj⟩
        subst hji
        rcases hm.leaves hj with h | h | h | h
        · exact absurd h hc
        · have hcounter := ht.counter
          rw [count_eq_zero hnone] at hcounter
          omega
        · omega
        · exact absurd h ho

/-- Reloads and the clock touch neither cache nor calls. -/
theorem still_of_step (ha : actor e = none) (h : step H s e = some t) : t.calls = s.calls ∧
    t.cache = s.cache ∧ t.cacheCount = s.cacheCount ∧ t.inflight = s.inflight := by
  cases e with
  | usersStore r table | generationAdd r =>
    simp only [step] at h
    split at h <;> cases h
    exact ⟨rfl, rfl, rfl, rfl⟩
  | tick d =>
    cases h
    exact ⟨rfl, rfl, rfl, rfl⟩
  | _ => cases ha

/-- A call moves by its own steps only. -/
theorem calls_of_run {j : CallId} {es : List Event} (h : run (step H) s es = some t)
    (hj : ∀ e ∈ es, actor e ≠ some j) : t.calls j = s.calls j := by
  induction es generalizing s with
  | nil =>
    cases h
    rfl
  | cons e es ih =>
    obtain ⟨m, hs, hr⟩ := run_cons_some h
    rw [ih hr fun f hf => hj f (List.mem_cons_of_mem e hf)]
    cases ha : actor e with
    | none => rw [(still_of_step ha hs).1]
    | some i =>
      have hji : j ≠ i := by
        rintro rfl
        exact hj e List.mem_cons_self ha
      obtain ⟨-, he | rfl⟩ := call_effect ha hs
      · cases he with
        | own c hown hc hi hf => rw [hc, Function.update_of_ne hji]
        | owned hpc hn hc hi hf => rw [hc, Function.update_of_ne hji]
        | closed hpc hc hi hf => rw [hc, Function.update_of_ne hji]
      · rfl

/-- An entry of the in-flight table stays with its call until the call removes it. -/
theorem inFlight_step (hs : InFlight H s) (h : step H s e = some t) : InFlight H t := by
  cases ha : actor e with
  | none =>
    obtain ⟨hc, -, -, hi⟩ := still_of_step ha h
    rwa [InFlight, hc, hi]
  | some i =>
    obtain ⟨-, he | rfl⟩ := call_effect ha h
    · intro key j hk
      cases he with
      | own c hown hc hi hf =>
        rw [hi] at hk
        obtain ⟨ho, hkey⟩ := hs key j hk
        by_cases hj : j = i
        · subst hj
          obtain ⟨ho', -, hu, hp⟩ := hown.owns ho
          rw [hc, Function.update_self, cacheKey_eq hu hp]
          exact ⟨ho', hkey⟩
        · rw [hc, Function.update_of_ne hj]
          exact ⟨ho, hkey⟩
      | owned hpc hn hc hi hf =>
        rw [hi] at hk
        by_cases hkey : key = cacheKey H (s.calls i)
        · rw [hkey, Function.update_self] at hk
          cases hk
          rw [hc, Function.update_self, hkey]
          exact ⟨rfl, rfl⟩
        · rw [Function.update_of_ne hkey] at hk
          obtain ⟨ho, hkj⟩ := hs key j hk
          have hj : j ≠ i := by
            rintro rfl
            rw [hpc] at ho
            cases ho
          rw [hc, Function.update_of_ne hj]
          exact ⟨ho, hkj⟩
      | closed hpc hc hi hf =>
        rw [hi] at hk
        by_cases hkey : key = cacheKey H (s.calls i)
        · rw [hkey, Function.update_self] at hk
          cases hk
        · rw [Function.update_of_ne hkey] at hk
          obtain ⟨ho, hkj⟩ := hs key j hk
          have hj : j ≠ i := by
            rintro rfl
            exact hkey hkj.symm
          rw [hc, Function.update_of_ne hj]
          exact ⟨ho, hkj⟩
    · exact hs

/-- What holds at every point of a run that keeps count. -/
structure Balanced (H : Hashes) (s : State) : Prop where
  accounted : Accounted s
  bounded : Bounded s
  inFlight : InFlight H s

theorem balanced_step (hs : Balanced H s) (hC : KeepsCount H s e) (h : step H s e = some t) :
    Balanced H t := by
  have hflight := inFlight_step hs.inFlight h
  cases ha : actor e with
  | some i =>
    rcases moves_of_step ha hC h with rfl | ⟨c, d, hm⟩
    · exact hs
    · exact ⟨accounted_moves hs.accounted hm, bounded_moves hs.accounted hs.bounded hm, hflight⟩
  | none =>
    obtain ⟨hc, hcache, hcount, -⟩ := still_of_step ha h
    have hpresent : present t = present s := by
      funext key
      rw [present, present, hcache]
    have hcalls : ∀ f, callsAt f t = callsAt f s := by
      intro f
      funext j
      rw [callsAt, callsAt, hc]
    obtain ⟨h₁, h₂, h₃, h₄⟩ := hs.accounted
    refine ⟨⟨?_, ?_, ?_, ?_⟩, ?_, hflight⟩
    · rwa [hpresent]
    · rwa [hcalls]
    · rwa [hcalls]
    · rwa [hcount, entries, hpresent, hcalls, hcalls]
    · have hb := hs.bounded
      rwa [Bounded, entries, hpresent, hc]

theorem settled_of_balanced (hs : Balanced H s) : Settled s := by
  intro hq
  have hidle : ∀ f : Pc → Bool, f .absent = false → f .returned = false →
      ∀ j, callsAt f s j = false := by
    intro f ha hr j
    rw [callsAt]
    rcases hq j with h | h
    · rw [h, ha]
    · rw [h, hr]
  have hcounter := hs.accounted.counter
  rw [count_eq_zero (hidle _ rfl rfl), count_eq_zero (hidle _ rfl rfl)] at hcounter
  have hbound : (entries s : Int) ≤ authCacheMaxEntries := by
    rcases hs.bounded with h | ⟨j, hj⟩
    · exact h
    · rw [show bounding (s.calls j).pc = false from hidle bounding rfl rfl j] at hj
      cases hj
  refine ⟨hs.accounted.present, by omega, by omega, fun key => ?_⟩
  cases hk : s.inflight key with
  | none => rfl
  | some j =>
    have ho := (hs.inFlight key j hk).1
    rw [show owns (s.calls j).pc = false from hidle owns rfl rfl j] at ho
    cases ho

theorem balanced_initial (table : Table) : Balanced H (initial table) := by
  have hnone : ∀ f : Pc → Bool, f .absent = false → ∀ j, callsAt f (initial table) j = false :=
    fun f ha j => ha
  have hempty : ∀ key, present (initial table) key = false := fun key => rfl
  have hfinite : ∀ {ι : Type} {g : ι → Bool}, (∀ j, g j = false) → (Holds g).Finite := by
    intro ι g hg
    rw [holds_empty hg]
    exact Set.finite_empty
  refine ⟨⟨hfinite hempty, hfinite (hnone _ rfl), hfinite (hnone _ rfl), ?_⟩, Or.inl ?_, nofun⟩
  · rw [entries, count_eq_zero hempty, count_eq_zero (hnone _ rfl), count_eq_zero (hnone _ rfl)]
    rfl
  · rw [entries, count_eq_zero hempty]
    decide

/-- In every run that overwrites only entries that are still there and breaks off no
trimming that is needed, the counter is right, the cache within its bound and nothing
in flight whenever no call is in progress. -/
theorem settled_of_kept (H : Hashes) (table : Table) (es : List Event)
    (hC : Meets (step H) (KeepsCount H) (initial table) es) :
    Always (step H) Settled (initial table) es :=
  always_of_invariant (fun _ _ _ hs hC h => balanced_step hs hC h) (fun _ hs => settled_of_balanced hs)
    (balanced_initial table) hC

/-! ## Two runs -/

/-- The steps of a check up to its look in the in-flight table. -/
def looksUp (i : CallId) : List Event :=
  [.call i alice secret, .loadUsers i, .loadGeneration i, .readClock i, .cacheLoad i]

/-- Two calls miss the cache; one computes and stores, then the other computes and
finds the entry of the first. -/
def secondStore : List Event :=
  looksUp 0 ++ looksUp 1 ++
    [.lookup 0, .acquire 0, .hash 0, .build 0, .loadOrStore 0, .count 0, .closeFlight 0,
      .lookup 1, .acquire 1, .hash 1, .build 1, .loadOrStore 1]

/-- An entry that is still there is overwritten. -/
theorem settled_overwritten :
    Always (step hashes) Settled (initial aliceTable) (secondStore ++ [.store 1, .closeFlight 1]) := by
  refine settled_of_kept hashes aliceTable _ (meets_append ?_ fun t ht => ?_)
  · refine meets_of_mem fun e he s => ?_
    simp only [secondStore, looksUp, List.cons_append, List.nil_append, List.mem_cons,
      List.not_mem_nil, or_false] at he
    rcases he with rfl | rfl | rfl | rfl | rfl | rfl | rfl | rfl | rfl | rfl | rfl | rfl | rfl | rfl |
      rfl | rfl | rfl | rfl | rfl | rfl | rfl | rfl <;> trivial
  · have hpresent : present t (cacheKey hashes (t.calls 1)) = true :=
      run_component ht (fun s => present s (cacheKey hashes (s.calls 1))) (by decide +kernel)
    exact ⟨fun _ => hpresent, fun u _ => ⟨trivial, fun _ _ => trivial⟩⟩

/-- A reload makes the entry stale, and a third call removes it before it is overwritten. -/
def storeAfterDelete : List Event :=
  secondStore ++ [.usersStore 1 aliceTable, .generationAdd 1] ++ looksUp 2 ++
    [.staleDelete 2, .staleCount 2, .lookup 2, .store 1, .closeFlight 1, .wake 2]

/-- All three calls have returned; the cache has an entry and the counter says none. -/
theorem entry_uncounted : ¬∀ (H : Hashes) (table : Table) (es : List Event),
    Always (step H) Settled (initial table) es := by
  intro h
  have hrun : (run (step hashes) (initial aliceTable) storeAfterDelete).map
      (fun t => (t.cacheCount, present t ⟨alice, secretDigest⟩, (t.calls 0).pc, (t.calls 1).pc,
        (t.calls 2).pc)) = some (0, true, .returned, .returned, .returned) := by decide +kernel
  obtain ⟨t, ht, hs⟩ := Option.map_eq_some_iff.mp hrun
  simp only [Prod.mk.injEq] at hs
  obtain ⟨hcount, hentry, h0, h1, h2⟩ := hs
  have hquiet : Quiet t := by
    intro i
    match i with
    | 0 => exact Or.inr h0
    | 1 => exact Or.inr h1
    | 2 => exact Or.inr h2
    | i + 3 =>
      have hactors : ∀ e ∈ storeAfterDelete, ∀ j ∈ actor e, j < 3 := by decide +kernel
      have hnot : ∀ e ∈ storeAfterDelete, actor e ≠ some (i + 3) := by
        intro e he ha
        exact absurd (hactors e he (i + 3) ha) (Nat.not_lt.mpr (Nat.le_add_left 3 i))
      rw [calls_of_run ht hnot]
      exact Or.inl rfl
  obtain ⟨hfin, heq, -⟩ :=
    h hashes aliceTable storeAfterDelete storeAfterDelete [] t (List.append_nil _).symm ht hquiet
  rw [hcount] at heq
  have hzero : entries t = 0 := by omega
  have hempty := (Set.ncard_eq_zero hfin).mp hzero
  have hmem : (⟨alice, secretDigest⟩ : CacheKey) ∈ Holds (present t) := hentry
  rw [hempty] at hmem
  exact hmem

end SplitProxy.AuthStore
