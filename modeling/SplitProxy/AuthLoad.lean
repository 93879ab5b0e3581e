import SplitProxy.AuthAccounting
import SplitProxy.SingleFlight

/-!
# Password checks under load

`authPBKDF2Concurrency` bounds how many calls derive a key at once, and the in-flight
table keeps two of them from deriving the same one. A call that waits for its turn, or
for the verdict of another call, does not wait for good, and the loops of `cleanupCache`
come to an end.
-/
namespace SplitProxy.AuthStore

open Runs FiniteCount

/-- The call holds a place of `pbkdf2Sem`. -/
def derives : Pc → Bool
  | .hashing => true
  | _ => false

def begun : Pc → Bool
  | .absent => false
  | _ => true

/-- What a call has to do with the in-flight table. -/
def roleOf (H : Hashes) (c : Call) : Role CacheKey :=
  if owns c.pc = true then .leads (cacheKey H c)
  else if c.pc = .waiting then .waits (cacheKey H c) c.flight
  else .apart

def flightsOf (s : State) : Flights CacheKey Bool := ⟨s.inflight, s.flights⟩

/-- `Range` is at its end when it has visited every entry. -/
def Thorough (s : State) : Event → Prop
  | .sweepEnd i => ∀ key entry, s.cache key = some entry → (s.calls i).now ≤ entry.validUntil
  | .trimNone _ => ∀ key, s.cache key = none
  | _ => True

variable {H : Hashes} {s t u : State} {e : Event} {es : List Event} {i j : CallId} {c : Call}
variable {f : Pc → Bool} {table : Table} {key : CacheKey}

/-! ## The semaphore -/

/-- A step of call `i`, seen from the semaphore and the cache. -/
structure Part (s t : State) (i : CallId) (c : Call) : Prop where
  calls : t.calls = Function.update s.calls i c
  sem : t.pbkdf2Sem = s.pbkdf2Sem - (derives (s.calls i).pc).toNat + (derives c.pc).toNat
  turn : derives c.pc = true → s.pbkdf2Sem < authPBKDF2Concurrency
  present : (Holds (present s)).Finite → (Holds (present t)).Finite

theorem present_congr (h : t.cache = s.cache) : present t = present s := by
  funext k
  rw [present, present, h]

theorem present_put {entry : CacheEntry}
    (h : t.cache = Function.update s.cache key (some entry)) :
    present t = Function.update (present s) key true := by
  rw [← present_update s key entry]
  funext k
  rw [present, h]

theorem part_plain {p : Pc} (hp : (s.calls i).pc = p) (hd : derives p = false)
    (hc : t.calls = Function.update s.calls i c) (hn : derives c.pc = false)
    (hsem : t.pbkdf2Sem = s.pbkdf2Sem) (hcache : t.cache = s.cache) : Part s t i c := by
  constructor
  · exact hc
  · simp [hsem, hp, hd, hn]
  · simp [hn]
  · rw [present_congr hcache]
    exact id

theorem part_put {p : Pc} {entry : CacheEntry} (hp : (s.calls i).pc = p) (hd : derives p = false)
    (hc : t.calls = Function.update s.calls i c) (hn : derives c.pc = false)
    (hsem : t.pbkdf2Sem = s.pbkdf2Sem)
    (hcache : t.cache = Function.update s.cache key (some entry)) : Part s t i c := by
  constructor
  · exact hc
  · simp [hsem, hp, hd, hn]
  · simp [hn]
  · intro hfin
    rw [present_put hcache]
    exact finite_update hfin _ _

/-- What `LoadAndDelete` leaves of the cache. -/
theorem present_loadAndDelete {deleted missed : Pc} :
    present (loadAndDelete s i key deleted missed) = Function.update (present s) key false := by
  unfold loadAndDelete
  cases hk : s.cache key with
  | some entry =>
    funext k
    by_cases hkk : k = key
    · subst hkk
      simp [present]
    · simp [present, hkk]
  | none =>
    have hno : present s key = false := by simp [present, hk]
    funext k
    by_cases hkk : k = key
    · subst hkk
      simp [present, setCall, hk]
    · simp [present, setCall, hkk]

theorem part_loadAndDelete {p deleted missed : Pc} (hp : (s.calls i).pc = p)
    (hd : derives p = false) (hdel : derives deleted = false) (hmiss : derives missed = false) :
    ∃ c, Part s (loadAndDelete s i key deleted missed) i c := by
  have hfin : (Holds (present s)).Finite →
      (Holds (present (loadAndDelete s i key deleted missed))).Finite := by
    intro hfin
    rw [present_loadAndDelete]
    exact finite_update hfin _ _
  revert hfin
  unfold loadAndDelete
  cases hk : s.cache key with
  | some entry =>
    intro hfin
    refine ⟨{ s.calls i with pc := deleted }, rfl, ?_, ?_, hfin⟩
    · simp [setCall, hp, hd, hdel]
    · simp [hdel]
  | none =>
    intro hfin
    refine ⟨{ s.calls i with pc := missed }, rfl, ?_, ?_, hfin⟩
    · simp [setCall, hp, hd, hmiss]
    · simp [hmiss]

theorem part_of_step (ha : actor e = some i) (h : step H s e = some t) :
    t = s ∨ ∃ c, Part s t i c := by
  cases e with
  | call j u p | loadGeneration j | readClock j | build j | sweepBegin j | sweepEnd j | trimNone j
  | closeFlight j =>
    cases ha
    simp only [step] at h
    split at h <;> cases h
    exact Or.inr ⟨_, part_plain ‹_› rfl rfl rfl rfl rfl⟩
  | loadUsers j =>
    cases ha
    simp only [step] at h
    split at h
    · split at h <;> cases h <;> exact Or.inr ⟨_, part_plain ‹_› rfl rfl rfl rfl rfl⟩
    · cases h
  | cacheLoad j =>
    cases ha
    simp only [step] at h
    split at h
    · rename_i hpc
      split at h
      · cases h
        exact Or.inr ⟨_, part_plain hpc rfl rfl rfl rfl rfl⟩
      · split at h <;> cases h <;> exact Or.inr ⟨_, part_plain hpc rfl rfl rfl rfl rfl⟩
    · cases h
  | lookup j =>
    cases ha
    simp only [step] at h
    split at h
    · rename_i hpc
      split at h <;> cases h <;> exact Or.inr ⟨_, part_plain hpc rfl rfl rfl rfl rfl⟩
    · cases h
  | wake j =>
    cases ha
    simp only [step] at h
    split at h
    · rename_i hpc
      obtain ⟨ok, -, rfl⟩ := Option.map_eq_some_iff.mp h
      exact Or.inr ⟨_, part_plain hpc rfl rfl rfl rfl rfl⟩
    · cases h
  | acquire j =>
    cases ha
    simp only [step] at h
    split at h
    · rename_i hpc
      cases h
      right
      refine ⟨_, rfl, ?_, fun _ => hpc.2, id⟩
      simp [hpc.1, derives]
    · cases h
  | hash j =>
    cases ha
    simp only [step] at h
    split at h
    · rename_i hpc
      cases h
      right
      refine ⟨_, rfl, ?_, ?_, id⟩
      · simp [hpc, derives]
      · simp [derives]
    · cases h
  | trimVisit j key =>
    cases ha
    simp only [step] at h
    split at h
    · rename_i hpc
      cases h
      exact Or.inr ⟨_, part_plain hpc.1 rfl rfl rfl rfl rfl⟩
    · cases h
  | sweepVisit j key =>
    cases ha
    simp only [step] at h
    split at h
    · rename_i hpc
      split at h
      · split at h <;> cases h
        · exact Or.inr ⟨_, part_plain hpc rfl rfl rfl rfl rfl⟩
        · exact Or.inl rfl
      · cases h
    · cases h
  | staleDelete j | sweepDelete j | trimDelete j =>
    cases ha
    simp only [step] at h
    split at h <;> cases h
    exact Or.inr (part_loadAndDelete ‹_› rfl rfl rfl)
  | staleCount j | sweepCount j | trimCount j =>
    cases ha
    simp only [step] at h
    split at h <;> cases h
    exact Or.inr ⟨_, part_plain ‹_› rfl rfl rfl rfl rfl⟩
  | loadOrStore j =>
    cases ha
    simp only [step] at h
    split at h
    · rename_i hpc
      split at h <;> cases h
      · exact Or.inr ⟨_, part_plain hpc rfl rfl rfl rfl rfl⟩
      · exact Or.inr ⟨_, part_put hpc rfl rfl rfl rfl rfl⟩
    · cases h
  | store j =>
    cases ha
    simp only [step] at h
    split at h <;> cases h
    exact Or.inr ⟨_, part_put ‹_› rfl rfl rfl rfl rfl⟩
  | count j =>
    cases ha
    simp only [step] at h
    split at h <;> cases h
    right
    by_cases hle : s.cacheCount + 1 ≤ authCacheMaxEntries
    · exact ⟨_, part_plain ‹_› rfl rfl (by simp only [hle, ↓reduceIte]; rfl) rfl rfl⟩
    · exact ⟨_, part_plain ‹_› rfl rfl (by simp only [hle, ↓reduceIte]; rfl) rfl rfl⟩
  | trim j =>
    cases ha
    simp only [step] at h
    split at h <;> cases h
    right
    by_cases hlt : authCacheMaxEntries < s.cacheCount
    · exact ⟨_, part_plain ‹_› rfl rfl (by simp only [hlt, ↓reduceIte]; rfl) rfl rfl⟩
    · exact ⟨_, part_plain ‹_› rfl rfl (by simp only [hlt, ↓reduceIte]; rfl) rfl rfl⟩
  | usersStore r table | generationAdd r | tick d => cases ha

/-- Reloads and the clock leave the semaphore alone. -/
theorem sem_of_step (ha : actor e = none) (h : step H s e = some t) :
    t.pbkdf2Sem = s.pbkdf2Sem ∧ t.flights = s.flights := by
  cases e with
  | usersStore r table | generationAdd r =>
    simp only [step] at h
    split at h <;> cases h
    exact ⟨rfl, rfl⟩
  | tick d =>
    cases h
    exact ⟨rfl, rfl⟩
  | _ => cases ha

/-- The semaphore counts the calls that hold one of its places. -/
structure Turns (s : State) : Prop where
  present : (Holds (present s)).Finite
  derives : (Holds (callsAt derives s)).Finite
  sem : s.pbkdf2Sem = count (callsAt AuthStore.derives s)
  bound : s.pbkdf2Sem ≤ authPBKDF2Concurrency

theorem turns_initial (table : Table) : Turns (initial table) := by
  have hcache : ∀ key, AuthStore.present (initial table) key = false := fun key => rfl
  have hcalls : ∀ i, callsAt AuthStore.derives (initial table) i = false := fun i => rfl
  constructor
  · rw [holds_empty hcache]
    exact Set.finite_empty
  · rw [holds_empty hcalls]
    exact Set.finite_empty
  · rw [count_eq_zero hcalls]
    rfl
  · exact Nat.zero_le _

theorem turns_part (hs : Turns s) (h : Part s t i c) : Turns t := by
  have hcount := count_update hs.derives i (AuthStore.derives c.pc)
  rw [← callsAt_update _ h.calls] at hcount
  have hsem := h.sem
  have hold := hs.sem
  have hbound := hs.bound
  -- a call that gives a place back is one of those counted
  have hothers := count_update hs.derives i false
  simp only [callsAt, Bool.toNat_false] at hcount hsem hothers
  constructor
  · exact h.present hs.present
  · rw [callsAt_update _ h.calls]
    exact finite_update hs.derives _ _
  · cases hd : AuthStore.derives (s.calls i).pc
    all_goals
      rw [hd] at hcount hsem hothers
      simp only [Bool.toNat_true, Bool.toNat_false] at hcount hsem hothers
      omega
  · cases hc : AuthStore.derives c.pc with
    | true =>
      have hturn := h.turn hc
      rw [hc, Bool.toNat_true] at hsem
      omega
    | false =>
      rw [hc, Bool.toNat_false] at hsem
      omega

theorem turns_step (hs : Turns s) (h : step H s e = some t) : Turns t := by
  cases ha : actor e with
  | some i =>
    rcases part_of_step ha h with rfl | ⟨c, hpart⟩
    · exact hs
    · exact turns_part hs hpart
  | none =>
    obtain ⟨hcalls, hcache, -, -⟩ := still_of_step ha h
    obtain ⟨hsem, -⟩ := sem_of_step ha h
    have hderives : callsAt AuthStore.derives t = callsAt AuthStore.derives s := by
      funext j
      rw [callsAt, callsAt, hcalls]
    constructor
    · rw [present_congr hcache]
      exact hs.present
    · rw [hderives]
      exact hs.derives
    · rw [hsem, hderives]
      exact hs.sem
    · rw [hsem]
      exact hs.bound

/-- When no place is free some call holds one. -/
theorem Turns.holder (hs : Turns s) (hfull : ¬s.pbkdf2Sem < authPBKDF2Concurrency) :
    ∃ j, (s.calls j).pc = .hashing := by
  have hsome : (Holds (callsAt AuthStore.derives s)).Nonempty := by
    by_contra hnone
    have hzero : count (callsAt AuthStore.derives s) = 0 := by
      rw [count, Set.not_nonempty_iff_eq_empty.mp hnone, Set.ncard_empty]
    have hsem := hs.sem
    simp only [authPBKDF2Concurrency] at hfull
    omega
  obtain ⟨j, hj⟩ := hsome
  use j
  have hpc : AuthStore.derives (s.calls j).pc = true := hj
  revert hpc
  cases (s.calls j).pc <;> simp [AuthStore.derives]

/-! ## The in-flight table -/

/-- The in-flight table is sound, and what has a verdict has returned. -/
structure Flying (H : Hashes) (s : State) : Prop where
  flights : (flightsOf s).Sound (roleOf H ∘ s.calls)
  results : ∀ i, (s.flights i).isSome = true → (s.calls i).pc = .returned

theorem roleOf_owns (h : owns c.pc = true) : roleOf H c = .leads (cacheKey H c) := if_pos h

theorem roleOf_waiting (h : c.pc = .waiting) : roleOf H c = .waits (cacheKey H c) c.flight := by
  simp [roleOf, h, owns]

theorem roleOf_apart (h : owns c.pc = false) (hw : c.pc ≠ .waiting) : roleOf H c = .apart := by
  simp [roleOf, h, hw]

theorem owns_of_leads (h : roleOf H c = .leads key) : owns c.pc = true ∧ cacheKey H c = key := by
  simp only [roleOf] at h
  split at h
  · cases h
    exact ⟨‹_›, rfl⟩
  · split at h <;> cases h

theorem waiting_of_waits (h : roleOf H c = .waits key j) :
    c.pc = .waiting ∧ cacheKey H c = key ∧ c.flight = j := by
  simp only [roleOf] at h
  split at h
  · cases h
  · split at h <;> cases h
    exact ⟨‹_›, rfl, rfl⟩

/-- Only the in-flight lookup makes an owner. -/
theorem Own.owns_eq {c c' : Call} (h : Own H s c c') : AuthStore.owns c'.pc = AuthStore.owns c.pc := by
  cases h with
  | began u p h0 | rejected h0 | cached ok h0 | loaded user h0 hl | joined j h0 hj
  | woke ok h0 hf | hashed h0 =>
    rw [h0]
    rfl
  | moved _ hsh h0 h1 hown hd hw => exact hown

/-- A call that waits has just found its key in the table. -/
theorem Own.joins {c c' : Call} (h : Own H s c c') (hw : c'.pc = .waiting) :
    s.inflight (cacheKey H c') = some c'.flight := by
  cases h with
  | joined j h0 hj => exact hj
  | moved _ hsh h0 h1 ho hd hn => exact absurd hw hn
  | _ => cases hw

theorem flying_initial (table : Table) : Flying H (initial table) := by
  constructor
  · exact Flights.sound_empty
  · intro i h
    cases h

/-- A call that moves by itself. -/
theorem flying_own {c : Call} (hs : Flying H s) (h : Own H s (s.calls i) c)
    (hc : t.calls = Function.update s.calls i c) (hi : t.inflight = s.inflight)
    (hf : t.flights = s.flights) : Flying H t := by
  have hflights : flightsOf t = flightsOf s := by rw [flightsOf, flightsOf, hi, hf]
  constructor
  · rw [hflights, hc, Function.comp_update]
    cases ho : owns (s.calls i).pc with
    | true =>
      obtain ⟨ho', -, hu, hp⟩ := h.owns ho
      have hrole : roleOf H c = (roleOf H ∘ s.calls) i := by
        rw [Function.comp_apply, roleOf_owns ho', roleOf_owns ho, cacheKey_eq hu hp]
      rw [hrole, Function.update_eq_self]
      exact hs.flights
    | false =>
      have ho' : owns c.pc = false := h.owns_eq.trans ho
      apply hs.flights.move
      · intro key hlead
        rw [(owns_of_leads hlead).1] at ho
        cases ho
      · intro key hlead
        rw [(owns_of_leads hlead).1] at ho'
        cases ho'
      · intro key j hwaits
        obtain ⟨hw, rfl, rfl⟩ := waiting_of_waits hwaits
        left
        exact (hs.flights.led _ _).mp (h.joins hw)
  · intro j hj
    rw [hf] at hj
    have hret := hs.results j hj
    have hji : j ≠ i := by
      rintro rfl
      exact h.not_returned hret
    rw [hc, Function.update_of_ne hji]
    exact hret

theorem flying_step (hs : Flying H s) (h : step H s e = some t) : Flying H t := by
  cases ha : actor e with
  | none =>
    obtain ⟨hcalls, -, -, hinflight⟩ := still_of_step ha h
    obtain ⟨-, hflights⟩ := sem_of_step ha h
    have hsame : flightsOf t = flightsOf s := by rw [flightsOf, flightsOf, hinflight, hflights]
    constructor
    · rw [hsame, hcalls]
      exact hs.flights
    · rw [hflights, hcalls]
      exact hs.results
  | some i =>
    obtain ⟨-, heffect | rfl⟩ := call_effect ha h
    · cases heffect with
      | own c hown hc hi hf => exact flying_own hs hown hc hi hf
      | owned hpc hn hc hi hf =>
        have hfresh : s.flights i = none := by
          by_contra hsome
          have hret := hs.results i (Option.isSome_iff_ne_none.mpr hsome)
          rw [hpc] at hret
          cases hret
        have happart : (roleOf H ∘ s.calls) i = .apart := by
          apply roleOf_apart
          · rw [hpc]
            rfl
          · rw [hpc]
            decide
        constructor
        · rw [hc, Function.comp_update, roleOf_owns rfl]
          have hlead := hs.flights.lead happart hn hfresh
          rw [flightsOf, hi, hf]
          exact hlead
        · intro j hj
          rw [hf] at hj
          have hret := hs.results j hj
          have hji : j ≠ i := by
            rintro rfl
            rw [hpc] at hret
            cases hret
          rw [hc, Function.update_of_ne hji]
          exact hret
      | closed hpc hc hi hf =>
        have hleads : (roleOf H ∘ s.calls) i = .leads (cacheKey H (s.calls i)) := by
          apply roleOf_owns
          rw [hpc]
          rfl
        constructor
        · rw [hc, Function.comp_update, roleOf_apart rfl (by simp)]
          have hfinish := hs.flights.finish hleads (s.calls i).ok
          rw [flightsOf, hi, hf]
          exact hfinish
        · intro j hj
          by_cases hji : j = i
          · rw [hji, hc, Function.update_self]
          · rw [hf, Function.update_of_ne hji] at hj
            rw [hc, Function.update_of_ne hji]
            exact hs.results j hj
    · exact hs

/-! ## How many derive a key -/

theorem turns_run (hr : run (step H) (initial table) es = some s) : Turns s :=
  run_preserves (fun _ _ _ => turns_step) (turns_initial table) hr

theorem flying_run (hr : run (step H) (initial table) es = some s) : Flying H s :=
  run_preserves (fun _ _ _ => flying_step) (flying_initial table) hr

/-- In every run at most `authPBKDF2Concurrency` calls derive a key at a time, each
place of the semaphore is held by one of them, and no two derive the same key. -/
theorem derivations_bounded (hr : run (step H) (initial table) es = some s) :
    {i | (s.calls i).pc = .hashing}.Finite ∧
      s.pbkdf2Sem = {i | (s.calls i).pc = .hashing}.ncard ∧
      s.pbkdf2Sem ≤ authPBKDF2Concurrency ∧
      ∀ i j, (s.calls i).pc = .hashing → (s.calls j).pc = .hashing →
        cacheKey H (s.calls i) = cacheKey H (s.calls j) → i = j := by
  have hturns := turns_run hr
  have hflying := flying_run hr
  have hset : {i | (s.calls i).pc = .hashing} = Holds (callsAt derives s) := by
    ext i
    simp only [Set.mem_ofPred_eq, Holds, callsAt]
    cases (s.calls i).pc <;> simp [derives]
  rw [hset]
  refine ⟨hturns.derives, hturns.sem, hturns.bound, fun i j hi hj hkey => ?_⟩
  have howns : ∀ k, (s.calls k).pc = .hashing →
      (roleOf H ∘ s.calls) k = .leads (cacheKey H (s.calls k)) := by
    intro k hk
    apply roleOf_owns
    rw [hk]
    rfl
  have hi' := howns i hi
  rw [hkey] at hi'
  exact hflying.flights.unique hi' (howns j hj)

/-- Every user has the same password. -/
def crowdTable : Table := fun _ => some ⟨1000, salt, secretKey⟩

def arrives (i : CallId) (username : Bytes) : List Event :=
  [.call i username secret, .loadUsers i, .loadGeneration i, .readClock i, .cacheLoad i, .lookup i]

/-- Two calls derive, a third waits for a place and a fourth for the first. -/
def crowd : List Event :=
  arrives 0 [97] ++ [.acquire 0] ++ arrives 1 [98] ++ [.acquire 1] ++ arrives 2 [99] ++
    arrives 3 [97]

theorem run_crowd : ∃ s, run (step hashes) (initial crowdTable) crowd = some s ∧
    (s.calls 0).pc = .hashing ∧ (s.calls 1).pc = .hashing ∧ (s.calls 2).pc = .acquire ∧
    (s.calls 3).pc = .waiting ∧ s.pbkdf2Sem = 2 := by
  have h : (run (step hashes) (initial crowdTable) crowd).map (fun s =>
      ((s.calls 0).pc, (s.calls 1).pc, (s.calls 2).pc, (s.calls 3).pc, s.pbkdf2Sem)) =
      some (.hashing, .hashing, .acquire, .waiting, 2) := by decide +kernel
  obtain ⟨s, hs, hpcs⟩ := Option.map_eq_some_iff.mp h
  simp only [Prod.mk.injEq] at hpcs
  exact ⟨s, hs, hpcs⟩

theorem derivations_bounded_crowd : ∃ s, run (step hashes) (initial crowdTable) crowd = some s ∧
    {i | (s.calls i).pc = .hashing}.ncard = 2 := by
  obtain ⟨s, hs, -, -, -, -, hsem⟩ := run_crowd
  refine ⟨s, hs, ?_⟩
  rw [← (derivations_bounded hs).2.1]
  exact hsem

/-! ## No call waits for good -/

/-- How far a call is from its end. An entry that is taken away buys the steps of its
round; `hit` tells whether the entry a sweep is about to take away is still there. -/
def rank (hit : Bool) : Pc → Nat
  | .returned | .waiting => 0
  | .closing => 1
  | .trimDelete => 2
  | .trimRange => 3
  | .trimming => 4
  | .trimCount => 5
  | .sweepDelete => if hit then 5 else 7
  | .sweeping => 6
  | .overwriting => 6
  | .sweepCount => 7
  | .sweepStart => 7
  | .counting => 8
  | .built => 13
  | .hashed => 14
  | .hashing => 15
  | .acquire => 16
  | .lookup => 17
  | .staleDeleted => 18
  | .stale => 19
  | .clockRead => 20
  | .generationLoaded => 21
  | .usersLoaded => 22
  | .begun => 23
  | .absent => 24

noncomputable def remaining (s : State) (i : CallId) : Nat :=
  4 * entries s + rank (present s (s.calls i).sweepKey) (s.calls i).pc

/-- A step that brings call `i` nearer to its end. -/
structure Nearer (H : Hashes) (s t : State) (i : CallId) (e : Event) : Prop where
  step : step H s e = some t
  thorough : Thorough s e
  actor : actor e = some i
  less : remaining t i < remaining s i

theorem less_of_rank {p q : Pc} (hp : (s.calls i).pc = p) (hq : (t.calls i).pc = q)
    (hcache : t.cache = s.cache)
    (hrank : rank (present s (t.calls i).sweepKey) q < rank (present s (s.calls i).sweepKey) p) :
    remaining t i < remaining s i := by
  rw [remaining, remaining, hp, hq, entries, entries, present_congr hcache]
  omega

theorem less_plain {p q : Pc} (hp : (s.calls i).pc = p) (hq : (t.calls i).pc = q)
    (hcache : t.cache = s.cache) (hrank : ∀ b b', rank b q < rank b' p) :
    remaining t i < remaining s i :=
  less_of_rank hp hq hcache (hrank _ _)

theorem less_put {p q : Pc} {entry : CacheEntry} (hfin : (Holds (present s)).Finite)
    (hp : (s.calls i).pc = p) (hq : (t.calls i).pc = q)
    (hcache : t.cache = Function.update s.cache key (some entry))
    (hrank : ∀ b b', rank b q + 4 < rank b' p) : remaining t i < remaining s i := by
  have hcount := count_update hfin key true
  rw [← present_put hcache] at hcount
  have hless := hrank (present t (t.calls i).sweepKey) (present s (s.calls i).sweepKey)
  rw [remaining, remaining, hp, hq, entries, entries]
  simp only [Bool.toNat_true] at hcount
  omega

/-- `LoadAndDelete` pays for what follows with the entry it takes, or goes on where
less is left to do. -/
theorem less_loadAndDelete {p deleted missed : Pc} (hfin : (Holds (present s)).Finite)
    (hp : (s.calls i).pc = p)
    (hdel : present s key = true → ∀ b, rank b deleted < rank (present s (s.calls i).sweepKey) p + 4)
    (hmiss : present s key = false →
      ∀ b, rank b missed < rank (present s (s.calls i).sweepKey) p) :
    remaining (loadAndDelete s i key deleted missed) i < remaining s i := by
  have hcount := count_update hfin key false
  rw [← @present_loadAndDelete s i key deleted missed] at hcount
  rw [remaining, remaining, hp, entries, entries]
  have hpc : ((loadAndDelete s i key deleted missed).calls i).pc =
      if present s key = true then deleted else missed := by
    unfold loadAndDelete
    cases hk : s.cache key with
    | some entry => simp [present, hk, setCall]
    | none => simp [present, hk, setCall]
  rw [hpc]
  cases hk : present s key with
  | true =>
    rw [hk] at hcount
    have hless := hdel hk
    simp only [Bool.toNat_true, Bool.toNat_false, ↓reduceIte] at hcount ⊢
    have h := hless (present (loadAndDelete s i key deleted missed)
      ((loadAndDelete s i key deleted missed).calls i).sweepKey)
    omega
  | false =>
    rw [hk] at hcount
    have hless := hmiss hk
    simp only [Bool.toNat_false, Bool.false_eq_true, ↓reduceIte] at hcount ⊢
    have h := hless (present (loadAndDelete s i key deleted missed)
      ((loadAndDelete s i key deleted missed).calls i).sweepKey)
    omega

/-- A call that neither waits for another nor for a free place has a step of its own
that brings it nearer to its end. -/
theorem nearer (H : Hashes) (hfin : (Holds (present s)).Finite) (hbegun : (s.calls i).pc ≠ .absent)
    (hwaiting : (s.calls i).pc ≠ .waiting) (hreturned : (s.calls i).pc ≠ .returned)
    (hturn : (s.calls i).pc = .acquire → s.pbkdf2Sem < authPBKDF2Concurrency) :
    ∃ e t, Nearer H s t i e := by
  cases hpc : (s.calls i).pc with
  | absent => exact absurd hpc hbegun
  | waiting => exact absurd hpc hwaiting
  | returned => exact absurd hpc hreturned
  | begun =>
    use .loadUsers i
    cases hu : s.users (s.calls i).username with
    | none =>
      refine ⟨_, by simp only [step, hpc, hu, ↓reduceIte]; rfl, trivial, rfl, ?_⟩
      exact @less_plain s _ i _ .returned hpc (by simp [setCall]) rfl (by decide)
    | some user =>
      refine ⟨_, by simp only [step, hpc, hu, ↓reduceIte]; rfl, trivial, rfl, ?_⟩
      exact @less_plain s _ i _ .usersLoaded hpc (by simp [setCall]) rfl (by decide)
  | usersLoaded =>
    refine ⟨.loadGeneration i, _, if_pos hpc, trivial, rfl, ?_⟩
    exact @less_plain s _ i _ .generationLoaded hpc (by simp [setCall]) rfl (by decide)
  | generationLoaded =>
    refine ⟨.readClock i, _, if_pos hpc, trivial, rfl, ?_⟩
    exact @less_plain s _ i _ .clockRead hpc (by simp [setCall]) rfl (by decide)
  | clockRead =>
    use .cacheLoad i
    cases hk : s.cache (cacheKey H (s.calls i)) with
    | none =>
      refine ⟨_, by simp only [step, hpc, hk, ↓reduceIte]; rfl, trivial, rfl, ?_⟩
      exact @less_plain s _ i _ .lookup hpc (by simp [setCall]) rfl (by decide)
    | some entry =>
      by_cases hfresh : entry.generation = (s.calls i).generation ∧
          (s.calls i).now < entry.validUntil
      · refine ⟨_, by simp only [step, hpc, hk, hfresh, and_self, ↓reduceIte]; rfl, trivial, rfl, ?_⟩
        exact @less_plain s _ i _ .returned hpc (by simp [setCall]) rfl (by decide)
      · refine ⟨_, by simp only [step, hpc, hk, hfresh, ↓reduceIte]; rfl, trivial, rfl, ?_⟩
        exact @less_plain s _ i _ .stale hpc (by simp [setCall]) rfl (by decide)
  | stale =>
    refine ⟨.staleDelete i, _, if_pos hpc, trivial, rfl, less_loadAndDelete hfin hpc ?_ ?_⟩
    · exact fun _ b => by cases b <;> simp [rank]
    · exact fun _ b => by cases b <;> simp [rank]
  | staleDeleted =>
    refine ⟨.staleCount i, _, if_pos hpc, trivial, rfl, ?_⟩
    exact @less_plain s _ i _ .lookup hpc (by simp [countDown, setCall]) rfl (by decide)
  | lookup =>
    use .lookup i
    cases hk : s.inflight (cacheKey H (s.calls i)) with
    | some j =>
      refine ⟨_, by simp only [step, hpc, hk, ↓reduceIte]; rfl, trivial, rfl, ?_⟩
      exact @less_plain s _ i _ .waiting hpc (by simp [setCall]) rfl (by decide)
    | none =>
      refine ⟨_, by simp only [step, hpc, hk, ↓reduceIte]; rfl, trivial, rfl, ?_⟩
      exact @less_plain s _ i _ .acquire hpc (by simp [setCall]) rfl (by decide)
  | acquire =>
    refine ⟨.acquire i, _, if_pos ⟨hpc, hturn hpc⟩, trivial, rfl, ?_⟩
    exact @less_plain s _ i _ .hashing hpc (by simp [setCall]) rfl (by decide)
  | hashing =>
    refine ⟨.hash i, _, if_pos hpc, trivial, rfl, ?_⟩
    exact @less_plain s _ i _ .hashed hpc (by simp [setCall]) rfl (by decide)
  | hashed =>
    refine ⟨.build i, _, if_pos hpc, trivial, rfl, ?_⟩
    exact @less_plain s _ i _ .built hpc (by simp [setCall]) rfl (by decide)
  | built =>
    use .loadOrStore i
    cases hk : s.cache (cacheKey H (s.calls i)) with
    | some entry =>
      refine ⟨_, by simp only [step, hpc, hk, ↓reduceIte]; rfl, trivial, rfl, ?_⟩
      exact @less_plain s _ i _ .overwriting hpc (by simp [setCall]) rfl (by decide)
    | none =>
      refine ⟨_, by simp only [step, hpc, hk, ↓reduceIte]; rfl, trivial, rfl, ?_⟩
      exact less_put (q := .counting) hfin hpc (by simp [setCall]) rfl (by decide)
  | overwriting =>
    refine ⟨.store i, _, if_pos hpc, trivial, rfl, ?_⟩
    exact less_put (q := .closing) hfin hpc (by simp [setCall]) rfl (by decide)
  | counting =>
    refine ⟨.count i, _, if_pos hpc, trivial, rfl, ?_⟩
    by_cases hle : s.cacheCount + 1 ≤ authCacheMaxEntries
    · exact @less_plain s _ i _ .closing hpc (by simp [setCall, hle]) rfl (by decide)
    · exact @less_plain s _ i _ .sweepStart hpc (by simp [setCall, hle]) rfl (by decide)
  | sweepStart =>
    refine ⟨.sweepBegin i, _, if_pos hpc, trivial, rfl, ?_⟩
    exact @less_plain s _ i _ .sweeping hpc (by simp [setCall]) rfl (by decide)
  | sweeping =>
    by_cases hold : ∃ key entry, s.cache key = some entry ∧ entry.validUntil < (s.calls i).now
    · obtain ⟨key, entry, hk, hlt⟩ := hold
      have hstep : step H s (.sweepVisit i key) =
          some (setCall s i { s.calls i with sweepKey := key, pc := .sweepDelete }) := by
        simp only [step, hpc, hk, hlt, ↓reduceIte]
      have hhit : present s key = true := by simp [present, hk]
      refine ⟨.sweepVisit i key, _, hstep, trivial, rfl, ?_⟩
      apply less_of_rank (q := .sweepDelete) hpc
      · simp [setCall]
      · rfl
      · simp [setCall, rank, hhit]
    · refine ⟨.sweepEnd i, _, if_pos hpc, ?_, rfl, ?_⟩
      · intro key entry hk
        by_contra hlt
        exact hold ⟨key, entry, hk, Nat.lt_of_not_le hlt⟩
      · exact @less_plain s _ i _ .trimming hpc (by simp [setCall]) rfl (by decide)
  | sweepDelete =>
    refine ⟨.sweepDelete i, _, if_pos hpc, trivial, rfl, less_loadAndDelete hfin hpc ?_ ?_⟩
    · intro hk b
      rw [hk]
      cases b <;> simp [rank]
    · intro hk b
      rw [hk]
      cases b <;> simp [rank]
  | sweepCount =>
    refine ⟨.sweepCount i, _, if_pos hpc, trivial, rfl, ?_⟩
    exact @less_plain s _ i _ .sweeping hpc (by simp [countDown, setCall]) rfl (by decide)
  | trimming =>
    refine ⟨.trim i, _, if_pos hpc, trivial, rfl, ?_⟩
    by_cases hlt : authCacheMaxEntries < s.cacheCount
    · exact @less_plain s _ i _ .trimRange hpc (by simp [setCall, hlt]) rfl (by decide)
    · exact @less_plain s _ i _ .closing hpc (by simp [setCall, hlt]) rfl (by decide)
  | trimRange =>
    by_cases hsome : ∃ key, present s key = true
    · obtain ⟨key, hk⟩ := hsome
      refine ⟨.trimVisit i key, _, if_pos ⟨hpc, hk⟩, trivial, rfl, ?_⟩
      exact @less_plain s _ i _ .trimDelete hpc (by simp [setCall]) rfl (by decide)
    · refine ⟨.trimNone i, _, if_pos hpc, ?_, rfl, ?_⟩
      · intro key
        by_contra hk
        exact hsome ⟨key, Option.isSome_iff_ne_none.mpr hk⟩
      · exact @less_plain s _ i _ .closing hpc (by simp [setCall]) rfl (by decide)
  | trimDelete =>
    refine ⟨.trimDelete i, _, if_pos hpc, trivial, rfl, less_loadAndDelete hfin hpc ?_ ?_⟩
    · exact fun _ b => by cases b <;> simp [rank]
    · exact fun _ b => by cases b <;> simp [rank]
  | trimCount =>
    refine ⟨.trimCount i, _, if_pos hpc, trivial, rfl, ?_⟩
    exact @less_plain s _ i _ .trimming hpc (by simp [countDown, setCall]) rfl (by decide)
  | closing =>
    refine ⟨.closeFlight i, _, if_pos hpc, trivial, rfl, ?_⟩
    exact @less_plain s _ i _ .returned hpc (by simp [setCall]) rfl (by decide)

/-- From `s` to `t` by steps of calls that are at an `f` place in `s`, with every `Range`
gone through to its end. -/
def Goes (H : Hashes) (f : Pc → Bool) (s t : State) : Prop :=
  ∃ es, run (step H) s es = some t ∧ Meets (step H) Thorough s es ∧
    ∀ e ∈ es, ∃ j, actor e = some j ∧ f (s.calls j).pc = true

theorem goes_refl : Goes H f s s := by
  refine ⟨[], rfl, trivial, ?_⟩
  simp

theorem goes_step (h : step H s e = some t) (hthorough : Thorough s e) (ha : actor e = some i)
    (hi : f (s.calls i).pc = true) : Goes H f s t := by
  refine ⟨[e], ?_, meets_step hthorough h trivial, ?_⟩
  · rw [run_cons, h]
    rfl
  · intro e' he'
    rw [List.mem_singleton.mp he']
    exact ⟨i, ha, hi⟩

/-- Who is not at an `f` place stays where it is. -/
theorem Goes.other (h : Goes H f s t) (hj : f (s.calls j).pc = false) : t.calls j = s.calls j := by
  obtain ⟨es, hrun, -, hactors⟩ := h
  apply calls_of_run hrun
  intro e he ha
  obtain ⟨k, hk, hfk⟩ := hactors e he
  rw [ha] at hk
  cases hk
  rw [hfk] at hj
  cases hj

theorem Goes.trans (h : Goes H f s t) (h' : Goes H f t u) : Goes H f s u := by
  have hother : ∀ j, f (s.calls j).pc = false → t.calls j = s.calls j := fun j => h.other
  obtain ⟨es, hrun, hmeets, hactors⟩ := h
  obtain ⟨fs, hrun', hmeets', hactors'⟩ := h'
  refine ⟨es ++ fs, run_join hrun hrun', ?_, ?_⟩
  · apply meets_append hmeets
    intro v hv
    rw [hrun] at hv
    cases hv
    exact hmeets'
  · intro e he
    rcases List.mem_append.mp he with he | he
    · exact hactors e he
    · obtain ⟨j, ha, hj⟩ := hactors' e he
      refine ⟨j, ha, ?_⟩
      cases hfj : f (s.calls j).pc with
      | true => rfl
      | false =>
        rw [hother j hfj, hfj] at hj
        cases hj

theorem Goes.mono {g : Pc → Bool} (h : Goes H f s t) (hg : ∀ p, f p = true → g p = true) :
    Goes H g s t := by
  obtain ⟨es, hrun, hmeets, hactors⟩ := h
  refine ⟨es, hrun, hmeets, fun e he => ?_⟩
  obtain ⟨j, ha, hj⟩ := hactors e he
  exact ⟨j, ha, hg _ hj⟩

theorem goes_run (h : Goes H f s t) : ∃ es, run (step H) s es = some t := by
  obtain ⟨es, hrun, -⟩ := h
  exact ⟨es, hrun⟩

/-- A place can be had: it is free, or one more derivation ends. -/
theorem place_freed (hs : Turns s) (hi : (s.calls i).pc = .acquire) :
    ∃ t, Goes H owns s t ∧ t.pbkdf2Sem < authPBKDF2Concurrency ∧ t.calls i = s.calls i ∧
      remaining t i = remaining s i := by
  by_cases hfree : s.pbkdf2Sem < authPBKDF2Concurrency
  · exact ⟨s, goes_refl, hfree, rfl, rfl⟩
  · obtain ⟨j, hj⟩ := hs.holder hfree
    have hji : i ≠ j := by
      rintro rfl
      rw [hi] at hj
      cases hj
    have hstep : step H s (.hash j) = some { setCall s j { s.calls j with
        ok := checkPBKDF2 H (s.calls j).user (s.calls j).password, pc := .hashed } with
        pbkdf2Sem := s.pbkdf2Sem - 1 } := if_pos hj
    have howns : owns (s.calls j).pc = true := by
      rw [hj]
      rfl
    have hcall := @Function.update_of_ne CallId _ _ i j hji { s.calls j with
        ok := checkPBKDF2 H (s.calls j).user (s.calls j).password, pc := .hashed } s.calls
    have hbound := hs.bound
    simp only [authPBKDF2Concurrency] at hfree hbound
    refine ⟨_, goes_step hstep trivial rfl howns, ?_, hcall, ?_⟩
    · simp only [authPBKDF2Concurrency]
      omega
    · rw [remaining, remaining]
      simp only [setCall, hcall]
      rfl

/-- What the calls that are under way keep. -/
structure Loaded (H : Hashes) (s : State) : Prop where
  turns : Turns s
  flying : Flying H s

theorem loaded_step (hs : Loaded H s) (h : step H s e = some t) : Loaded H t :=
  ⟨turns_step hs.turns h, flying_step hs.flying h⟩

theorem loaded_goes (hs : Loaded H s) (h : Goes H f s t) : Loaded H t := by
  obtain ⟨es, hrun⟩ := goes_run h
  exact run_preserves (fun _ _ _ => loaded_step) hs hrun

theorem loaded_run (hr : run (step H) (initial table) es = some s) : Loaded H s :=
  ⟨turns_run hr, flying_run hr⟩

/-- An owner brings the verdict to those that wait for it. -/
def Delivers (H : Hashes) (s : State) (i : CallId) : Prop :=
  ∃ t, Goes H owns s t ∧ (t.calls i).pc = .returned ∧ (t.flights i).isSome = true

theorem delivers_closing (hpc : (s.calls i).pc = .closing) : Delivers H s i := by
  have howns : owns (s.calls i).pc = true := by
    rw [hpc]
    rfl
  refine ⟨_, goes_step (e := .closeFlight i) (if_pos hpc) trivial rfl howns, ?_, ?_⟩
  · simp [setCall]
  · simp

/-- An owner that is not done with its flight goes on as an owner. -/
theorem owns_nearer (h : Nearer H s t i e) (ho : owns (s.calls i).pc = true)
    (hpc : (s.calls i).pc ≠ .closing) : owns (t.calls i).pc = true := by
  obtain ⟨-, heffect | rfl⟩ := call_effect h.actor h.step
  · cases heffect with
    | own c hown hc hi hf =>
      rw [hc, Function.update_self]
      exact (hown.owns ho).1
    | owned hl hn hc hi hf =>
      rw [hl] at ho
      cases ho
    | closed hcl hc hi hf => exact absurd hcl hpc
  · exact ho

theorem delivers_of_owns (hs : Loaded H s) (ho : owns (s.calls i).pc = true) :
    Delivers H s i := by
  induction hn : remaining s i using Nat.strong_induction_on generalizing s with
  | _ n ih =>
    by_cases hpc : (s.calls i).pc = .closing
    · exact delivers_closing hpc
    · have hplace : ∃ m, Goes H owns s m ∧ m.calls i = s.calls i ∧ remaining m i = remaining s i ∧
          ((m.calls i).pc = .acquire → m.pbkdf2Sem < authPBKDF2Concurrency) := by
        by_cases hacquire : (s.calls i).pc = .acquire
        · obtain ⟨m, hgoes, hfree, hsame, hleft⟩ := place_freed (H := H) hs.turns hacquire
          exact ⟨m, hgoes, hsame, hleft, fun _ => hfree⟩
        · exact ⟨s, goes_refl, rfl, rfl, fun h => absurd h hacquire⟩
      obtain ⟨m, hgoes, hsame, hleft, hfree⟩ := hplace
      have hm := loaded_goes hs hgoes
      have hom : owns (m.calls i).pc = true := by
        rw [hsame]
        exact ho
      have hne : ∀ p, owns p = false → (m.calls i).pc ≠ p := by
        rintro p hp rfl
        rw [hom] at hp
        cases hp
      obtain ⟨e, t, hnear⟩ :=
        nearer H hm.turns.present (hne _ rfl) (hne _ rfl) (hne _ rfl) hfree
      have hot := owns_nearer hnear hom (by rwa [hsame])
      have hless : remaining t i < n := by
        rw [← hn, ← hleft]
        exact hnear.less
      obtain ⟨u, hu, hret, hflight⟩ := ih _ hless (loaded_step hm hnear.step) hot rfl
      have hstep := goes_step hnear.step hnear.thorough hnear.actor hom
      exact ⟨u, hgoes.trans (hstep.trans hu), hret, hflight⟩

/-- The call can be brought to its end by the calls that are under way. -/
def Returns (H : Hashes) (s : State) (i : CallId) : Prop :=
  ∃ t, Goes H begun s t ∧ (t.calls i).pc = .returned

theorem begun_of_owns (p : Pc) (h : owns p = true) : begun p = true := by
  cases p <;> first | rfl | cases h

theorem returns_of_flight {ok : Bool} (hpc : (s.calls i).pc = .waiting)
    (hf : s.flights (s.calls i).flight = some ok) : Returns H s i := by
  have hstep : step H s (.wake i) =
      some (setCall s i { s.calls i with ok := ok, pc := .returned }) := by
    simp only [step, hpc, hf, ↓reduceIte]
    rfl
  refine ⟨_, goes_step hstep trivial rfl ?_, ?_⟩
  · rw [hpc]
    rfl
  · simp [setCall]

/-- The call waited for brings its verdict, and the one that waits stays where it is
meanwhile. -/
theorem returns_of_waiting (hs : Loaded H s) (hpc : (s.calls i).pc = .waiting) :
    Returns H s i := by
  rcases hs.flying.flights.waits i _ _ (roleOf_waiting hpc) with hlead | hsome
  · obtain ⟨t, hgoes, -, hflight⟩ := delivers_of_owns hs (owns_of_leads hlead).1
    have hsame : t.calls i = s.calls i := by
      apply hgoes.other
      rw [hpc]
      rfl
    obtain ⟨ok, hok⟩ := Option.isSome_iff_exists.mp hflight
    rw [← hsame] at hok hpc
    obtain ⟨u, hu, hret⟩ := returns_of_flight (H := H) hpc hok
    exact ⟨u, (hgoes.mono begun_of_owns).trans hu, hret⟩
  · obtain ⟨ok, hok⟩ := Option.isSome_iff_exists.mp hsome
    exact returns_of_flight hpc hok

theorem begun_nearer (h : Nearer H s t i e) (hb : (s.calls i).pc ≠ .absent) :
    (t.calls i).pc ≠ .absent := by
  obtain ⟨-, heffect | rfl⟩ := call_effect h.actor h.step
  · cases heffect with
    | own c hown hc hi hf =>
      rw [hc, Function.update_self]
      cases hown with
      | began u p h0 => exact absurd h0 hb
      | moved _ hsh h0 h1 ho hd hw =>
        intro habsent
        rw [habsent] at h1
        cases h1
      | hashed h0 | rejected h0 | cached ok h0 | loaded user h0 hl | joined j h0 hj
      | woke ok h0 hf => simp
    | owned hl hn hc hi hf => simp [hc]
    | closed hcl hc hi hf => simp [hc]
  · exact hb

theorem returns_of_loaded (hs : Loaded H s) (hb : (s.calls i).pc ≠ .absent) : Returns H s i := by
  induction hn : remaining s i using Nat.strong_induction_on generalizing s with
  | _ n ih =>
    by_cases hret : (s.calls i).pc = .returned
    · exact ⟨s, goes_refl, hret⟩
    by_cases hwait : (s.calls i).pc = .waiting
    · exact returns_of_waiting hs hwait
    cases ho : owns (s.calls i).pc with
    | true =>
      obtain ⟨t, hgoes, hret, -⟩ := delivers_of_owns hs ho
      exact ⟨t, hgoes.mono begun_of_owns, hret⟩
    | false =>
      have hacquire : (s.calls i).pc ≠ .acquire := by
        intro hacquire
        rw [hacquire] at ho
        cases ho
      obtain ⟨e, t, hnear⟩ := nearer H hs.turns.present hb hwait hret fun h => absurd h hacquire
      have hless : remaining t i < n := by
        rw [← hn]
        exact hnear.less
      obtain ⟨u, hu, hret⟩ := ih _ hless (loaded_step hs hnear.step) (begun_nearer hnear hb) rfl
      have hbegun : begun (s.calls i).pc = true := by
        revert hb
        cases (s.calls i).pc <;> simp [begun]
      have hstep := goes_step hnear.step hnear.thorough hnear.actor hbegun
      exact ⟨u, hstep.trans hu, hret⟩

/-- No password check is ever stuck: from every state it can be brought to its end by
the calls under way alone, however many wait for a place of the semaphore, with every
sweep gone through to its end and no entry left behind where trimming finds none. -/
theorem check_returns (hr : run (step H) (initial table) es = some s)
    (hi : (s.calls i).pc ≠ .absent) : Returns H s i :=
  returns_of_loaded (loaded_run hr) hi

theorem check_returns_crowd : ∃ s, run (step hashes) (initial crowdTable) crowd = some s ∧
    (s.calls 2).pc = .acquire ∧ Returns hashes s 2 ∧
    (s.calls 3).pc = .waiting ∧ Returns hashes s 3 := by
  obtain ⟨s, hs, -, -, h2, h3, -⟩ := run_crowd
  exact ⟨s, hs, h2, check_returns hs (by simp [h2]), h3, check_returns hs (by simp [h3])⟩

end SplitProxy.AuthStore
