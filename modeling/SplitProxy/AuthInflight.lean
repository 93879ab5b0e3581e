import SplitProxy.AuthStore

/-!
# Shared password checks

A call that finds another call in flight under its key takes that call's
verdict. The key is the username and the digest of the password, so what the
two calls share need not come from the same user table.
-/
namespace SplitProxy.AuthStore

open Runs

/-- The call has loaded its user and not returned. -/
def settled : Pc → Bool
  | .absent | .begun | .returned => false
  | _ => true

/-- The call's own entry is in the in-flight table. -/
def owns : Pc → Bool
  | .acquire | .hashing | .hashed | .built | .overwriting | .counting | .sweepStart | .sweeping
  | .sweepDelete | .sweepCount | .trimming | .trimRange | .trimDelete | .trimCount
  | .closing => true
  | _ => false

/-- The call has computed its verdict. -/
def decided : Pc → Bool
  | .hashed | .built | .overwriting | .counting | .sweepStart | .sweeping | .sweepDelete
  | .sweepCount | .trimming | .trimRange | .trimDelete | .trimCount | .closing => true
  | _ => false

/-- The locals a shared verdict depends on. -/
def shared (c : Call) : Bytes × Bytes × AuthUser × ReloadId × Bool :=
  (c.username, c.password, c.user, c.source, c.ok)

variable {H : Hashes} {s t : State} {e : Event} {i : CallId}

/-- A step of one call that touches no in-flight entry. -/
inductive Own (H : Hashes) (s : State) (c : Call) : Call → Prop where
  | began (username password : Bytes) (h : c.pc = .absent) :
    Own H s c { noCall with username := username, password := password, pc := .begun }
  | rejected (h : c.pc = .begun) : Own H s c { c with ok := false, pc := .returned }
  | loaded (user : AuthUser) (h : c.pc = .begun) (hu : s.users c.username = some user) :
    Own H s c { c with user := user, source := s.usersBy, pc := .usersLoaded }
  | cached (ok : Bool) (h : c.pc = .clockRead) : Own H s c { c with ok := ok, pc := .returned }
  | joined (j : CallId) (h : c.pc = .lookup) (hj : s.inflight (cacheKey H c) = some j) :
    Own H s c { c with flight := j, pc := .waiting }
  | woke (ok : Bool) (h : c.pc = .waiting) (hf : s.flights c.flight = some ok) :
    Own H s c { c with ok := ok, pc := .returned }
  | hashed (h : c.pc = .hashing) :
    Own H s c { c with ok := checkPBKDF2 H c.user c.password, pc := .hashed }
  | moved (c' : Call) (hs : shared c' = shared c) (h : settled c.pc = true)
      (h' : settled c'.pc = true) (ho : owns c'.pc = owns c.pc) (hd : decided c'.pc = decided c.pc)
      (hw : c'.pc ≠ .waiting) : Own H s c c'

/-- A step of call `i` by what it does to the calls and to the in-flight entries. -/
inductive Effect (H : Hashes) (s t : State) (i : CallId) : Prop where
  | own (c : Call) (h : Own H s (s.calls i) c) (hc : t.calls = Function.update s.calls i c)
      (hi : t.inflight = s.inflight) (hf : t.flights = s.flights)
  | owned (h : (s.calls i).pc = .lookup) (hn : s.inflight (cacheKey H (s.calls i)) = none)
      (hc : t.calls = Function.update s.calls i { s.calls i with pc := .acquire })
      (hi : t.inflight = Function.update s.inflight (cacheKey H (s.calls i)) (some i))
      (hf : t.flights = s.flights)
  | closed (h : (s.calls i).pc = .closing)
      (hc : t.calls = Function.update s.calls i { s.calls i with pc := .returned })
      (hi : t.inflight = Function.update s.inflight (cacheKey H (s.calls i)) none)
      (hf : t.flights = Function.update s.flights i (some (s.calls i).ok))

/-- No reload moves. -/
structure SameReloads (s t : State) : Prop where
  users : t.users = s.users
  usersBy : t.usersBy = s.usersBy
  reloads : t.reloads = s.reloads
  published : t.published = s.published

/-- The call the event belongs to, if any. -/
def actor : Event → Option CallId
  | .call i _ _ | .loadUsers i | .loadGeneration i | .readClock i | .cacheLoad i
  | .staleDelete i | .staleCount i | .lookup i | .wake i | .acquire i | .hash i | .build i
  | .loadOrStore i | .store i | .count i | .sweepBegin i | .sweepVisit i _ | .sweepDelete i
  | .sweepCount i | .sweepEnd i | .trim i | .trimVisit i _ | .trimNone i | .trimDelete i
  | .trimCount i | .closeFlight i => some i
  | .usersStore _ _ | .generationAdd _ | .tick _ => none

/-- Moving on from `p` to `q` changes nothing the other calls see. -/
def stays (p q : Pc) : Bool :=
  settled p && settled q && (owns q == owns p) && (decided q == decided p) && q != .waiting

theorem effect_moved {c : Call} {p : Pc} (hp : (s.calls i).pc = p)
    (hc : t.calls = Function.update s.calls i c) (hi : t.inflight = s.inflight)
    (hf : t.flights = s.flights) (hs : shared c = shared (s.calls i))
    (hq : stays p c.pc = true) : Effect H s t i := by
  simp only [stays, Bool.and_eq_true, beq_iff_eq, bne_iff_ne] at hq
  obtain ⟨⟨⟨⟨h1, h2⟩, h3⟩, h4⟩, h5⟩ := hq
  rw [← hp] at h1 h3 h4
  exact .own c (.moved c hs h1 h2 h3 h4 h5) hc hi hf

theorem effect_loadAndDelete {key : CacheKey} {p deleted missed : Pc} (hp : (s.calls i).pc = p)
    (hd : stays p deleted = true) (hm : stays p missed = true) :
    SameReloads s (loadAndDelete s i key deleted missed) ∧
      Effect H s (loadAndDelete s i key deleted missed) i := by
  unfold loadAndDelete
  split
  · exact ⟨⟨rfl, rfl, rfl, rfl⟩, effect_moved hp rfl rfl rfl rfl hd⟩
  · exact ⟨⟨rfl, rfl, rfl, rfl⟩, effect_moved hp rfl rfl rfl rfl hm⟩

theorem call_effect (ha : actor e = some i) (h : step H s e = some t) :
    SameReloads s t ∧ (Effect H s t i ∨ t = s) := by
  have hsame : ∀ c, SameReloads s (setCall s i c) := fun c => ⟨rfl, rfl, rfl, rfl⟩
  cases e with
  | call j u p =>
    cases ha
    simp only [step] at h
    split at h <;> cases h
    exact ⟨hsame _, Or.inl (.own _ (.began u p ‹_›) rfl rfl rfl)⟩
  | loadUsers j =>
    cases ha
    simp only [step] at h
    split at h
    · split at h <;> cases h
      · exact ⟨hsame _, Or.inl (.own _ (.rejected ‹_›) rfl rfl rfl)⟩
      · exact ⟨hsame _, Or.inl (.own _ (.loaded _ ‹_› ‹_›) rfl rfl rfl)⟩
    · cases h
  | cacheLoad j =>
    cases ha
    simp only [step] at h
    split at h
    · rename_i hpc
      split at h
      · cases h
        exact ⟨hsame _, Or.inl (effect_moved hpc rfl rfl rfl rfl rfl)⟩
      · split at h <;> cases h
        · exact ⟨hsame _, Or.inl (.own _ (.cached _ hpc) rfl rfl rfl)⟩
        · exact ⟨hsame _, Or.inl (effect_moved hpc rfl rfl rfl rfl rfl)⟩
    · cases h
  | lookup j =>
    cases ha
    simp only [step] at h
    split at h
    · rename_i hpc
      split at h <;> cases h
      · exact ⟨hsame _, Or.inl (.own _ (.joined _ hpc ‹_›) rfl rfl rfl)⟩
      · exact ⟨⟨rfl, rfl, rfl, rfl⟩, Or.inl (.owned hpc ‹_› rfl rfl rfl)⟩
    · cases h
  | wake j =>
    cases ha
    simp only [step] at h
    split at h
    · rename_i hpc
      obtain ⟨ok, hok, rfl⟩ := Option.map_eq_some_iff.mp h
      exact ⟨hsame _, Or.inl (.own _ (.woke ok hpc hok) rfl rfl rfl)⟩
    · cases h
  | hash j =>
    cases ha
    simp only [step] at h
    split at h <;> cases h
    exact ⟨⟨rfl, rfl, rfl, rfl⟩, Or.inl (.own _ (.hashed ‹_›) rfl rfl rfl)⟩
  | closeFlight j =>
    cases ha
    simp only [step] at h
    split at h <;> cases h
    exact ⟨⟨rfl, rfl, rfl, rfl⟩, Or.inl (.closed ‹_› rfl rfl rfl)⟩
  | loadGeneration j | readClock j | build j | sweepBegin j | sweepEnd j | trimNone j =>
    cases ha
    simp only [step] at h
    split at h <;> cases h
    exact ⟨hsame _, Or.inl (effect_moved ‹_› rfl rfl rfl rfl rfl)⟩
  | trim j =>
    cases ha
    simp only [step] at h
    split at h <;> cases h
    refine ⟨hsame _, Or.inl (effect_moved ‹_› rfl rfl rfl rfl ?_)⟩
    by_cases hlt : authCacheMaxEntries < s.cacheCount
    · simp only [hlt, ↓reduceIte]
      rfl
    · simp only [hlt, ↓reduceIte]
      rfl
  | count j =>
    cases ha
    simp only [step] at h
    split at h <;> cases h
    refine ⟨⟨rfl, rfl, rfl, rfl⟩, Or.inl (effect_moved ‹_› rfl rfl rfl rfl ?_)⟩
    by_cases hle : s.cacheCount + 1 ≤ authCacheMaxEntries
    · simp only [hle, ↓reduceIte]
      rfl
    · simp only [hle, ↓reduceIte]
      rfl
  | acquire j =>
    cases ha
    simp only [step] at h
    split at h
    · rename_i hpc
      cases h
      exact ⟨⟨rfl, rfl, rfl, rfl⟩, Or.inl (effect_moved hpc.1 rfl rfl rfl rfl rfl)⟩
    · cases h
  | loadOrStore j =>
    cases ha
    simp only [step] at h
    split at h
    · rename_i hpc
      split at h <;> cases h
      · exact ⟨hsame _, Or.inl (effect_moved hpc rfl rfl rfl rfl rfl)⟩
      · exact ⟨⟨rfl, rfl, rfl, rfl⟩, Or.inl (effect_moved hpc rfl rfl rfl rfl rfl)⟩
    · cases h
  | store j | staleCount j | sweepCount j | trimCount j =>
    cases ha
    simp only [step] at h
    split at h <;> cases h
    exact ⟨⟨rfl, rfl, rfl, rfl⟩, Or.inl (effect_moved ‹_› rfl rfl rfl rfl rfl)⟩
  | staleDelete j | sweepDelete j | trimDelete j =>
    cases ha
    simp only [step] at h
    split at h <;> cases h
    refine And.imp_right Or.inl (effect_loadAndDelete ‹_› ?_ ?_)
    · rfl
    · rfl
  | sweepVisit j key =>
    cases ha
    simp only [step] at h
    split at h
    · rename_i hpc
      split at h
      · split at h <;> cases h
        · exact ⟨hsame _, Or.inl (effect_moved hpc rfl rfl rfl rfl rfl)⟩
        · exact ⟨⟨rfl, rfl, rfl, rfl⟩, Or.inr rfl⟩
      · cases h
    · cases h
  | trimVisit j key =>
    cases ha
    simp only [step] at h
    split at h
    · rename_i hpc
      cases h
      exact ⟨hsame _, Or.inl (effect_moved hpc.1 rfl rfl rfl rfl rfl)⟩
    · cases h
  | usersStore r table | generationAdd r | tick d => cases ha

/-! ## Who shares what -/

/-- What the calls and the in-flight entries know of each other. -/
structure Shared (H : Hashes) (s : State) : Prop where
  users : s.users = s.published s.usersBy
  started : s.reloads s.usersBy ≠ .notStarted
  loaded : ∀ i, settled (s.calls i).pc = true → s.reloads (s.calls i).source ≠ .notStarted ∧
    s.published (s.calls i).source (s.calls i).username = some (s.calls i).user
  decided : ∀ i, decided (s.calls i).pc = true →
    (s.calls i).ok = checkPBKDF2 H (s.calls i).user (s.calls i).password
  owner : ∀ key j, s.inflight key = some j →
    owns (s.calls j).pc = true ∧ cacheKey H (s.calls j) = key
  flights : ∀ j ok, s.flights j = some ok → (s.calls j).pc = .returned ∧
    ok = checkPBKDF2 H (s.calls j).user (s.calls j).password
  waiting : ∀ i, (s.calls i).pc = .waiting →
    (owns (s.calls (s.calls i).flight).pc = true ∨ (s.calls (s.calls i).flight).pc = .returned) ∧
    (s.calls (s.calls i).flight).user = (s.calls i).user ∧
    (s.calls (s.calls i).flight).password = (s.calls i).password

/-- A call that joins another has loaded the same record for the same password. -/
def JoinsSame (H : Hashes) (s : State) : Event → Prop
  | .lookup i => (s.calls i).pc = .lookup → ∀ j, s.inflight (cacheKey H (s.calls i)) = some j →
      (s.calls j).user = (s.calls i).user ∧ (s.calls j).password = (s.calls i).password
  | _ => True

/-- A verdict obtained by waiting is that of the table the call loaded itself. -/
def AnswersOwn (H : Hashes) (s : State) : Event → Prop
  | .wake i => (s.calls i).pc = .waiting → ∀ ok, s.flights (s.calls i).flight = some ok →
      ok = verdict H (s.published (s.calls i).source) (s.calls i).username (s.calls i).password
  | _ => True

theorem shared_initial (table : Table) : Shared H (initial table) := by
  refine ⟨rfl, by simp [initial], fun i h => ?_, fun i h => ?_, fun key j h => ?_,
    fun j ok h => ?_, fun i h => ?_⟩
  all_goals cases h

theorem Shared.answersOwn (hs : Shared H s) : AnswersOwn H s e := by
  cases e with
  | wake i =>
    intro hw ok hf
    obtain ⟨-, huser, hpassword⟩ := hs.waiting i hw
    have hok := (hs.flights _ ok hf).2
    have hu := (hs.loaded i (by rw [hw]; rfl)).2
    rw [hok, huser, hpassword, verdict, hu]
  | _ => trivial

/-- A call at its lookup does nothing else. -/
theorem lookup_of_pc (ha : actor e = some i) (hp : (s.calls i).pc = .lookup)
    (h : step H s e = some t) : e = .lookup i := by
  cases e with
  | lookup j =>
    cases ha
    rfl
  | usersStore r table | generationAdd r | tick d => cases ha
  | _ =>
    cases ha
    simp [step, hp] at h

theorem Own.settled {c c' : Call} (h : Own H s c c') (hu : s.users = s.published s.usersBy)
    (hb : s.reloads s.usersBy ≠ .notStarted)
    (hc : AuthStore.settled c.pc = true → s.reloads c.source ≠ .notStarted ∧
      s.published c.source c.username = some c.user) (hs : AuthStore.settled c'.pc = true) :
    s.reloads c'.source ≠ .notStarted ∧ s.published c'.source c'.username = some c'.user := by
  cases h with
  | began u p h0 => cases hs
  | rejected h0 => cases hs
  | cached ok h0 => cases hs
  | woke ok h0 hf => cases hs
  | loaded user h0 hl =>
    rw [hu] at hl
    exact ⟨hb, hl⟩
  | joined j h0 hj => exact hc (by rw [h0]; rfl)
  | hashed h0 => exact hc (by rw [h0]; rfl)
  | moved _ hsh h0 h1 ho hd hw =>
    simp only [shared, Prod.mk.injEq] at hsh
    obtain ⟨h1, -, h3, h4, -⟩ := hsh
    rw [h1, h3, h4]
    exact hc h0

theorem Own.decided {c c' : Call} (h : Own H s c c')
    (hc : AuthStore.decided c.pc = true → c.ok = checkPBKDF2 H c.user c.password)
    (hs : AuthStore.decided c'.pc = true) : c'.ok = checkPBKDF2 H c'.user c'.password := by
  cases h with
  | hashed h0 => rfl
  | moved _ hsh h0 h1 ho hd hw =>
    simp only [shared, Prod.mk.injEq] at hsh
    obtain ⟨-, h2, h3, -, h5⟩ := hsh
    rw [h2, h3, h5]
    exact hc (hd.symm.trans hs)
  | _ => cases hs

/-- An owner stays an owner and keeps its user and its password. -/
theorem Own.owns {c c' : Call} (h : Own H s c c') (ho : AuthStore.owns c.pc = true) :
    AuthStore.owns c'.pc = true ∧ c'.user = c.user ∧ c'.username = c.username ∧
      c'.password = c.password := by
  cases h with
  | began u p h0 | rejected h0 | cached ok h0 | loaded user h0 hl | joined j h0 hj
  | woke ok h0 hf =>
    rw [h0] at ho
    cases ho
  | hashed h0 => exact ⟨rfl, rfl, rfl, rfl⟩
  | moved _ hsh h0 h1 hown hd hw =>
    simp only [shared, Prod.mk.injEq] at hsh
    exact ⟨hown.trans ho, hsh.2.2.1, hsh.1, hsh.2.1⟩

theorem Own.not_returned {c c' : Call} (h : Own H s c c') : c.pc ≠ .returned := by
  intro hr
  cases h with
  | moved _ hsh h0 h1 ho hd hw =>
    rw [hr] at h0
    cases h0
  | began u p h0 | rejected h0 | cached ok h0 | loaded user h0 hl | joined j h0 hj
  | woke ok h0 hf | hashed h0 =>
    rw [hr] at h0
    cases h0

theorem Own.waiting {c c' : Call} (h : Own H s c c') (hw : c'.pc = .waiting) :
    c.pc = .lookup ∧ s.inflight (cacheKey H c) = some c'.flight ∧ c'.user = c.user ∧
      c'.password = c.password := by
  cases h with
  | joined j h0 hj => exact ⟨h0, hj, rfl, rfl⟩
  | moved _ hsh h0 h1 ho hd hn => exact absurd hw hn
  | _ => cases hw

theorem cacheKey_eq {c c' : Call} (hu : c'.username = c.username)
    (hp : c'.password = c.password) : cacheKey H c' = cacheKey H c := by
  rw [cacheKey, cacheKey, hu, hp]

/-- One call moves by itself. -/
theorem Shared.own {c : Call} (hs : Shared H s) (hr : SameReloads s t) (h : Own H s (s.calls i) c)
    (hjoin : (s.calls i).pc = .lookup → ∀ j, s.inflight (cacheKey H (s.calls i)) = some j →
      (s.calls j).user = (s.calls i).user ∧ (s.calls j).password = (s.calls i).password)
    (hc : t.calls = Function.update s.calls i c) (hi : t.inflight = s.inflight)
    (hf : t.flights = s.flights) : Shared H t := by
  have hself : t.calls i = c := by rw [hc, Function.update_self]
  have hother : ∀ j, j ≠ i → t.calls j = s.calls j := by
    intro j hj
    rw [hc, Function.update_of_ne hj]
  have hflight : ∀ j, owns (s.calls j).pc = true ∨ (s.calls j).pc = .returned →
      (owns (t.calls j).pc = true ∨ (t.calls j).pc = .returned) ∧
        (t.calls j).user = (s.calls j).user ∧ (t.calls j).password = (s.calls j).password := by
    intro j hj
    by_cases hji : j = i
    · rw [hji] at hj ⊢
      rw [hself]
      rcases hj with hj | hj
      · obtain ⟨ho, hu, -, hp⟩ := h.owns hj
        exact ⟨Or.inl ho, hu, hp⟩
      · exact absurd hj h.not_returned
    · rw [hother j hji]
      exact ⟨hj, rfl, rfl⟩
  refine ⟨?_, ?_, fun j hj => ?_, fun j hj => ?_, fun key j hk => ?_, fun j ok hj => ?_,
    fun j hj => ?_⟩
  · rw [hr.users, hr.published, hr.usersBy]
    exact hs.users
  · rw [hr.reloads, hr.usersBy]
    exact hs.started
  · rw [hr.reloads, hr.published]
    by_cases hji : j = i
    · rw [hji, hself] at hj ⊢
      exact h.settled hs.users hs.started (hs.loaded i) hj
    · rw [hother j hji] at hj ⊢
      exact hs.loaded j hj
  · by_cases hji : j = i
    · rw [hji, hself] at hj ⊢
      exact h.decided (hs.decided i) hj
    · rw [hother j hji] at hj ⊢
      exact hs.decided j hj
  · rw [hi] at hk
    obtain ⟨ho, hkey⟩ := hs.owner key j hk
    by_cases hji : j = i
    · rw [hji] at ho hkey ⊢
      rw [hself]
      obtain ⟨ho', -, hu, hp⟩ := h.owns ho
      exact ⟨ho', (cacheKey_eq hu hp).trans hkey⟩
    · rw [hother j hji]
      exact ⟨ho, hkey⟩
  · rw [hf] at hj
    obtain ⟨hret, hok⟩ := hs.flights j ok hj
    have hji : j ≠ i := by
      rintro rfl
      exact h.not_returned hret
    rw [hother j hji]
    exact ⟨hret, hok⟩
  · by_cases hji : j = i
    · rw [hji, hself] at hj ⊢
      obtain ⟨hpc, hfl, hu, hp⟩ := h.waiting hj
      obtain ⟨ho, -⟩ := hs.owner _ _ hfl
      obtain ⟨hju, hjp⟩ := hjoin hpc _ hfl
      obtain ⟨ho', hu', hp'⟩ := hflight _ (Or.inl ho)
      exact ⟨ho', by rw [hu', hju, hu], by rw [hp', hjp, hp]⟩
    · rw [hother j hji] at hj ⊢
      obtain ⟨ho, hu, hp⟩ := hs.waiting j hj
      obtain ⟨ho', hu', hp'⟩ := hflight _ ho
      exact ⟨ho', by rw [hu', hu], by rw [hp', hp]⟩

/-- A call registers its own entry. -/
theorem Shared.owned (hs : Shared H s) (hr : SameReloads s t) (h : (s.calls i).pc = .lookup)
    (hc : t.calls = Function.update s.calls i { s.calls i with pc := .acquire })
    (hi : t.inflight = Function.update s.inflight (cacheKey H (s.calls i)) (some i))
    (hf : t.flights = s.flights) : Shared H t := by
  have hself : t.calls i = { s.calls i with pc := .acquire } := by rw [hc, Function.update_self]
  have hother : ∀ j, j ≠ i → t.calls j = s.calls j := by
    intro j hj
    rw [hc, Function.update_of_ne hj]
  have hne : ∀ {j}, owns (s.calls j).pc = true ∨ (s.calls j).pc = .returned → j ≠ i := by
    rintro j hj rfl
    rw [h] at hj
    rcases hj with hj | hj
    · cases hj
    · cases hj
  refine ⟨?_, ?_, fun j hj => ?_, fun j hj => ?_, fun key j hk => ?_, fun j ok hj => ?_,
    fun j hj => ?_⟩
  · rw [hr.users, hr.published, hr.usersBy]
    exact hs.users
  · rw [hr.reloads, hr.usersBy]
    exact hs.started
  · rw [hr.reloads, hr.published]
    by_cases hji : j = i
    · rw [hji, hself]
      exact hs.loaded i (by rw [h]; rfl)
    · rw [hother j hji] at hj ⊢
      exact hs.loaded j hj
  · by_cases hji : j = i
    · rw [hji, hself] at hj
      cases hj
    · rw [hother j hji] at hj ⊢
      exact hs.decided j hj
  · rw [hi] at hk
    by_cases hkey : key = cacheKey H (s.calls i)
    · rw [hkey, Function.update_self] at hk
      cases hk
      rw [hself, hkey]
      exact ⟨rfl, rfl⟩
    · rw [Function.update_of_ne hkey] at hk
      obtain ⟨ho, hkj⟩ := hs.owner key j hk
      rw [hother j (hne (Or.inl ho))]
      exact ⟨ho, hkj⟩
  · rw [hf] at hj
    obtain ⟨hret, hok⟩ := hs.flights j ok hj
    rw [hother j (hne (Or.inr hret))]
    exact ⟨hret, hok⟩
  · by_cases hji : j = i
    · rw [hji, hself] at hj
      cases hj
    · rw [hother j hji] at hj ⊢
      obtain ⟨ho, hu, hp⟩ := hs.waiting j hj
      rw [hother _ (hne ho)]
      exact ⟨ho, hu, hp⟩

/-- A call publishes its verdict and removes its entry. -/
theorem Shared.closed (hs : Shared H s) (hr : SameReloads s t) (h : (s.calls i).pc = .closing)
    (hc : t.calls = Function.update s.calls i { s.calls i with pc := .returned })
    (hi : t.inflight = Function.update s.inflight (cacheKey H (s.calls i)) none)
    (hf : t.flights = Function.update s.flights i (some (s.calls i).ok)) : Shared H t := by
  have hself : t.calls i = { s.calls i with pc := .returned } := by rw [hc, Function.update_self]
  have hother : ∀ j, j ≠ i → t.calls j = s.calls j := by
    intro j hj
    rw [hc, Function.update_of_ne hj]
  refine ⟨?_, ?_, fun j hj => ?_, fun j hj => ?_, fun key j hk => ?_, fun j ok hj => ?_,
    fun j hj => ?_⟩
  · rw [hr.users, hr.published, hr.usersBy]
    exact hs.users
  · rw [hr.reloads, hr.usersBy]
    exact hs.started
  · rw [hr.reloads, hr.published]
    by_cases hji : j = i
    · rw [hji, hself] at hj
      cases hj
    · rw [hother j hji] at hj ⊢
      exact hs.loaded j hj
  · by_cases hji : j = i
    · rw [hji, hself] at hj
      cases hj
    · rw [hother j hji] at hj ⊢
      exact hs.decided j hj
  · rw [hi] at hk
    by_cases hkey : key = cacheKey H (s.calls i)
    · rw [hkey, Function.update_self] at hk
      cases hk
    · rw [Function.update_of_ne hkey] at hk
      obtain ⟨ho, hkj⟩ := hs.owner key j hk
      have hji : j ≠ i := by
        rintro rfl
        exact hkey hkj.symm
      rw [hother j hji]
      exact ⟨ho, hkj⟩
  · rw [hf] at hj
    by_cases hji : j = i
    · rw [hji, Function.update_self] at hj
      cases hj
      rw [hji, hself]
      exact ⟨rfl, hs.decided i (by rw [h]; rfl)⟩
    · rw [Function.update_of_ne hji] at hj
      rw [hother j hji]
      exact hs.flights j ok hj
  · by_cases hji : j = i
    · rw [hji, hself] at hj
      cases hj
    · rw [hother j hji] at hj ⊢
      obtain ⟨ho, hu, hp⟩ := hs.waiting j hj
      by_cases hfi : (s.calls j).flight = i
      · rw [hfi] at hu hp ⊢
        rw [hself]
        exact ⟨Or.inr rfl, hu, hp⟩
      · rw [hother _ hfi]
        exact ⟨ho, hu, hp⟩

/-- A reload moves, or the clock does. -/
theorem Shared.later (hs : Shared H s) (hl : Later s t) (hu : t.users = t.published t.usersBy)
    (hb : t.reloads t.usersBy ≠ .notStarted) (hc : t.calls = s.calls)
    (hi : t.inflight = s.inflight) (hf : t.flights = s.flights) : Shared H t := by
  refine ⟨hu, hb, fun j hj => ?_, ?_, ?_, ?_, ?_⟩
  · rw [hc] at hj ⊢
    obtain ⟨hst, hpub⟩ := hs.loaded j hj
    rw [(hl.started _ hst).2]
    exact ⟨(hl.started _ hst).1, hpub⟩
  · rw [hc]
    exact hs.decided
  · rw [hc, hi]
    exact hs.owner
  · rw [hc, hf]
    exact hs.flights
  · rw [hc]
    exact hs.waiting

theorem shared_step (hs : Shared H s) (hjoin : JoinsSame H s e) (h : step H s e = some t) :
    Shared H t := by
  cases ha : actor e with
  | some i =>
    obtain ⟨hr, he | rfl⟩ := call_effect ha h
    · cases he with
      | own c hown hc hi hf =>
        refine hs.own hr hown (fun hpc => ?_) hc hi hf
        have hev := lookup_of_pc ha hpc h
        subst hev
        exact hjoin hpc
      | owned hpc hn hc hi hf => exact hs.owned hr hpc hc hi hf
      | closed hpc hc hi hf => exact hs.closed hr hpc hc hi hf
    · exact hs
  | none =>
    cases e with
    | usersStore r table =>
      have hl := later_usersStore h
      simp only [step] at h
      split at h <;> cases h
      exact hs.later hl (by simp) (by simp) rfl rfl rfl
    | generationAdd r =>
      have hl := later_generationAdd h
      simp only [step] at h
      split at h <;> cases h
      exact hs.later hl hs.users (hl.started _ hs.started).1 rfl rfl rfl
    | tick d =>
      cases h
      exact hs.later (later_of_eq rfl rfl rfl rfl) hs.users hs.started rfl rfl rfl
    | _ => cases ha

/-! ## Tables that have been replaced -/

/-- The table of reload `r` was stored, and another one since. -/
def Replaced (s : State) (r : ReloadId) : Prop :=
  s.reloads r ≠ .notStarted ∧ s.usersBy ≠ r

/-- Call `i` has not loaded the table of reload `r`. -/
def Avoids (s : State) (i : CallId) (r : ReloadId) : Prop :=
  settled (s.calls i).pc = true → (s.calls i).source ≠ r

theorem avoids_own {r : ReloadId} {c : Call} (hr : Replaced s r) (ha : Avoids s i r)
    (h : Own H s (s.calls i) c) : settled c.pc = true → c.source ≠ r := by
  intro hs
  cases h with
  | loaded user h0 hu => exact hr.2
  | joined j h0 hj => exact ha (by rw [h0]; rfl)
  | hashed h0 => exact ha (by rw [h0]; rfl)
  | moved _ hsh h0 h1 ho hd hw =>
    simp only [shared, Prod.mk.injEq] at hsh
    rw [hsh.2.2.2.1]
    exact ha h0
  | _ => cases hs

/-- A table that has been replaced stays so, and a call that has not loaded it never does. -/
theorem avoids_step {r : ReloadId} (hs : Replaced s r ∧ Avoids s i r) (h : step H s e = some t) :
    Replaced t r ∧ Avoids t i r := by
  obtain ⟨hr, ha⟩ := hs
  cases hact : actor e with
  | some j =>
    obtain ⟨hsame, he | rfl⟩ := call_effect hact h
    · refine ⟨by rwa [Replaced, hsame.reloads, hsame.usersBy], ?_⟩
      by_cases hij : i = j
      · subst hij
        cases he with
        | own c hown hc hi hf =>
          rw [Avoids, hc, Function.update_self]
          exact avoids_own hr ha hown
        | owned hpc hn hc hi hf =>
          rw [Avoids, hc, Function.update_self]
          exact fun _ => ha (by rw [hpc]; rfl)
        | closed hpc hc hi hf =>
          rw [Avoids, hc, Function.update_self]
          intro hset
          cases hset
      · have hsame : t.calls i = s.calls i := by
          cases he with
          | own c hown hc hi hf => rw [hc, Function.update_of_ne hij]
          | owned hpc hn hc hi hf => rw [hc, Function.update_of_ne hij]
          | closed hpc hc hi hf => rw [hc, Function.update_of_ne hij]
        rwa [Avoids, hsame]
    · exact ⟨hr, ha⟩
  | none =>
    cases e with
    | usersStore x table =>
      simp only [step] at h
      split at h
      · rename_i hx
        cases h
        have hne : x ≠ r := by
          rintro rfl
          exact hr.1 hx
        refine ⟨⟨?_, hne⟩, ha⟩
        simpa [Function.update_of_ne hne.symm] using hr.1
      · cases h
    | generationAdd x =>
      simp only [step] at h
      split at h
      · rename_i hx
        cases h
        refine ⟨⟨?_, hr.2⟩, ha⟩
        by_cases hxr : r = x
        · simp [hxr]
        · simpa [Function.update_of_ne hxr] using hr.1
      · cases h
    | tick d =>
      cases h
      exact ⟨hr, ha⟩
    | _ => cases hact

/-- In a run whose calls join only calls with the same record and password, every shared
verdict is that of the table its call loaded, and a call that begins after a table has
been replaced does not load it. -/
theorem shared_of_same (H : Hashes) (table : Table) (es : List Event)
    (hc : Meets (step H) (JoinsSame H) (initial table) es) :
    Meets (step H) (AnswersOwn H) (initial table) es ∧
      ∀ es₁ es₂ es₃ s t i r, es = es₁ ++ es₂ ++ es₃ →
        run (step H) (initial table) es₁ = some s → Replaced s r → (s.calls i).pc = .absent →
        run (step H) s es₂ = some t → settled (t.calls i).pc = true → (t.calls i).source ≠ r := by
  constructor
  · refine meets_of_invariant (I := Shared H) ?_ ?_ (shared_initial table) hc
    · intro s e t hs hjoin h
      exact shared_step hs hjoin h
    · intro s e hs _
      exact hs.answersOwn
  · intro es₁ es₂ es₃ s t i r _ _ hr ha h2
    have havoid : Avoids s i r := by
      intro hset
      rw [ha] at hset
      cases hset
    have hinv := run_preserves (I := fun s => Replaced s r ∧ Avoids s i r)
      (fun s e t hs h => avoids_step hs h) ⟨hr, havoid⟩ h2
    exact hinv.2

/-- A check that owns its computation, and one that begins meanwhile and joins it. -/
def joinedCheck : List Event :=
  [.call 0 alice secret, .loadUsers 0, .loadGeneration 0, .readClock 0, .cacheLoad 0, .lookup 0,
    .call 1 alice secret, .loadUsers 1, .loadGeneration 1, .readClock 1, .cacheLoad 1, .lookup 1,
    .acquire 0, .hash 0, .build 0, .loadOrStore 0, .count 0, .closeFlight 0, .wake 1]

theorem shared_joined : Meets (step hashes) (JoinsSame hashes) (initial aliceTable) joinedCheck ∧
    Meets (step hashes) (AnswersOwn hashes) (initial aliceTable) joinedCheck := by
  have hc : Meets (step hashes) (JoinsSame hashes) (initial aliceTable) joinedCheck := by
    have h0 : Meets (step hashes) (JoinsSame hashes) (initial aliceTable)
        (joinedCheck.take 5 ++ joinedCheck.drop 5) := by
      refine meets_step trivial rfl (meets_step trivial rfl (meets_step trivial rfl
        (meets_step trivial rfl (meets_step trivial rfl (meets_step ?_ rfl ?_)))))
      · intro _ j hj
        cases hj
      · refine meets_step trivial rfl (meets_step trivial rfl (meets_step trivial rfl
          (meets_step trivial rfl (meets_step trivial rfl (meets_step ?_ rfl ?_)))))
        · intro _ j hj
          cases hj
          exact ⟨rfl, rfl⟩
        · exact meets_of_mem fun e he s => by
            simp only [List.mem_cons, List.not_mem_nil, or_false] at he
            rcases he with rfl | rfl | rfl | rfl | rfl | rfl | rfl <;> trivial
    exact h0
  exact ⟨hc, (shared_of_same hashes aliceTable joinedCheck hc).1⟩

/-- `alice` changes her password while a check of the old one is in flight; a check
that begins after the reload has returned joins it. -/
def staleCheck : List Event :=
  [.call 0 alice secret, .loadUsers 0, .loadGeneration 0, .readClock 0, .cacheLoad 0, .lookup 0,
    .usersStore 1 changedTable, .generationAdd 1,
    .call 1 alice secret, .loadUsers 1, .loadGeneration 1, .readClock 1, .cacheLoad 1, .lookup 1,
    .acquire 0, .hash 0, .build 0, .loadOrStore 0, .count 0, .closeFlight 0]

theorem stale_shared : ∃ s t, run (step hashes) (initial aliceTable) staleCheck = some s ∧
    step hashes s (.wake 1) = some t ∧ (t.calls 1).source = 1 ∧ (t.calls 1).pc = .returned ∧
    (t.calls 1).ok = true ∧ verdict hashes changedTable alice secret = false ∧
    ¬Meets (step hashes) (AnswersOwn hashes) (initial aliceTable) (staleCheck ++ [.wake 1]) := by
  obtain ⟨s, hs, hpc, hf, hp⟩ : ∃ s, run (step hashes) (initial aliceTable) staleCheck = some s ∧
      (s.calls 1).pc = .waiting ∧ s.flights (s.calls 1).flight = some true ∧
      s.published (s.calls 1).source = changedTable ∧
      (s.calls 1).username = alice ∧ (s.calls 1).password = secret ∧ (s.calls 1).source = 1 :=
    ⟨_, rfl, rfl, rfl, rfl, rfl, rfl, rfl⟩
  have hv : verdict hashes changedTable alice secret = false := by decide
  refine ⟨s, setCall s 1 { s.calls 1 with ok := true, pc := .returned }, hs, ?_, ?_, ?_, ?_, hv,
    fun h => ?_⟩
  · simp [step, hpc, hf]
  · simp [setCall, hp.2.2.2]
  · simp [setCall]
  · simp [setCall]
  · have hm := (meets_append_right h hs).1 hpc true hf
    rw [hp.1, hp.2.1, hp.2.2.1, hv] at hm
    cases hm

end SplitProxy.AuthStore
