import Mathlib.Logic.Function.Basic
import SplitProxy.Runs

/-!
# The proxy's credential store

`CheckCredentials` with its cache and its in-flight table, and `reload`. The
user table and the generation counter are two separate atomics. Every atomic
load or store, every `sync.Map` operation, every section under `inflightMu` and
every reading of the clock is one step of one call.
-/
namespace SplitProxy.AuthStore

open Runs

abbrev Bytes := List UInt8
abbrev CallId := Nat
abbrev ReloadId := Nat

def authSuccessTTL : Nat := 60 * 1000
def authFailureTTL : Nat := 2 * 1000
def authCacheMaxEntries : Int := 4096
def authPBKDF2Concurrency : Nat := 2

/-- `sha256.Sum256` and `pbkdf2.Key` over SHA-256: password, salt, iterations, key length. -/
structure Hashes where
  sha256 : Bytes → Bytes
  pbkdf2 : Bytes → Bytes → Nat → Nat → Bytes

structure AuthUser where
  iterations : Nat
  salt : Bytes
  expected : Bytes
  deriving DecidableEq, Repr

abbrev Table := Bytes → Option AuthUser

structure CacheKey where
  username : Bytes
  password : Bytes
  deriving DecidableEq, Repr

structure CacheEntry where
  validUntil : Nat
  generation : UInt64
  ok : Bool
  deriving DecidableEq, Repr

/-- Where a `CheckCredentials` call stands, `storeCache` and `cleanupCache` included. -/
inductive Pc where
  | absent
  | begun
  | usersLoaded
  | generationLoaded
  | clockRead
  | stale
  | staleDeleted
  | lookup
  | waiting
  | acquire
  | hashing
  | hashed
  | built
  | overwriting
  | counting
  | sweepStart
  | sweeping
  | sweepDelete
  | sweepCount
  | trimming
  | trimRange
  | trimDelete
  | trimCount
  | closing
  | returned
  deriving DecidableEq, Repr

/-- A call with its local variables; `source` is the reload whose table it loaded. -/
structure Call where
  username : Bytes
  password : Bytes
  user : AuthUser
  source : ReloadId
  generation : UInt64
  now : Nat
  flight : CallId
  ok : Bool
  entry : CacheEntry
  sweepKey : CacheKey
  pc : Pc

def noCall : Call where
  username := []
  password := []
  user := ⟨0, [], []⟩
  source := 0
  generation := 0
  now := 0
  flight := 0
  ok := false
  entry := ⟨0, 0, false⟩
  sweepKey := ⟨[], []⟩
  pc := .absent

/-- A reload that got its rows, around its last two statements. -/
inductive ReloadPc where
  | notStarted
  | stored
  | added
  deriving DecidableEq, Repr

structure State where
  users : Table
  generation : UInt64
  cache : CacheKey → Option CacheEntry
  cacheCount : Int
  pbkdf2Sem : Nat
  inflight : CacheKey → Option CallId
  /-- the `ok` of an in-flight entry whose `done` is closed -/
  flights : CallId → Option Bool
  calls : CallId → Call
  reloads : ReloadId → ReloadPc
  now : Nat
  /-- the reload that stored `users` -/
  usersBy : ReloadId
  /-- the table each reload stored -/
  published : ReloadId → Table
  /-- the latest reload whose `Add` produced each generation -/
  producedBy : UInt64 → ReloadId

/-- The store `NewAuthStore` returns: one reload is done. -/
def initial (table : Table) : State where
  users := table
  generation := 1
  cache := fun _ => none
  cacheCount := 0
  pbkdf2Sem := 0
  inflight := fun _ => none
  flights := fun _ => none
  calls := fun _ => noCall
  reloads := fun r => if r = 0 then .added else .notStarted
  now := 0
  usersBy := 0
  published := fun _ => table
  producedBy := fun _ => 0

inductive Event where
  | call (i : CallId) (username password : Bytes)
  | loadUsers (i : CallId)
  | loadGeneration (i : CallId)
  | readClock (i : CallId)
  | cacheLoad (i : CallId)
  | staleDelete (i : CallId)
  | staleCount (i : CallId)
  | lookup (i : CallId)
  | wake (i : CallId)
  | acquire (i : CallId)
  | hash (i : CallId)
  | build (i : CallId)
  | loadOrStore (i : CallId)
  | store (i : CallId)
  | count (i : CallId)
  | sweepBegin (i : CallId)
  | sweepVisit (i : CallId) (key : CacheKey)
  | sweepDelete (i : CallId)
  | sweepCount (i : CallId)
  | sweepEnd (i : CallId)
  | trim (i : CallId)
  | trimVisit (i : CallId) (key : CacheKey)
  | trimNone (i : CallId)
  | trimDelete (i : CallId)
  | trimCount (i : CallId)
  | closeFlight (i : CallId)
  | usersStore (r : ReloadId) (table : Table)
  | generationAdd (r : ReloadId)
  | tick (d : Nat)

variable (H : Hashes)

def checkPBKDF2 (user : AuthUser) (password : Bytes) : Bool :=
  H.pbkdf2 password user.salt user.iterations user.expected.length = user.expected

/-- What a plain check against a table answers. -/
def verdict (table : Table) (username password : Bytes) : Bool :=
  match table username with
  | none => false
  | some user => checkPBKDF2 H user password

def cacheKey (c : Call) : CacheKey := ⟨c.username, H.sha256 c.password⟩

def setCall (s : State) (i : CallId) (c : Call) : State :=
  { s with calls := Function.update s.calls i c }

/-- `LoadAndDelete`: to `deleted` when the key was present, else to `missed`. -/
def loadAndDelete (s : State) (i : CallId) (key : CacheKey) (deleted missed : Pc) : State :=
  match s.cache key with
  | some _ =>
    { setCall s i { s.calls i with pc := deleted } with
      cache := Function.update s.cache key none }
  | none => setCall s i { s.calls i with pc := missed }

/-- `cacheCount.Add(-1)`. -/
def countDown (s : State) (i : CallId) (pc : Pc) : State :=
  { setCall s i { s.calls i with pc := pc } with cacheCount := s.cacheCount - 1 }

def step (s : State) : Event → Option State
  | .call i username password =>
    if (s.calls i).pc = .absent then
      some (setCall s i { noCall with username := username, password := password, pc := .begun })
    else none
  | .loadUsers i =>
    let c := s.calls i
    if c.pc = .begun then
      match s.users c.username with
      | none => some (setCall s i { c with ok := false, pc := .returned })
      | some user =>
        some (setCall s i { c with user := user, source := s.usersBy, pc := .usersLoaded })
    else none
  | .loadGeneration i =>
    let c := s.calls i
    if c.pc = .usersLoaded then
      some (setCall s i { c with generation := s.generation, pc := .generationLoaded }) else none
  | .readClock i =>
    let c := s.calls i
    if c.pc = .generationLoaded then
      some (setCall s i { c with now := s.now, pc := .clockRead }) else none
  | .cacheLoad i =>
    let c := s.calls i
    if c.pc = .clockRead then
      match s.cache (cacheKey H c) with
      | none => some (setCall s i { c with pc := .lookup })
      | some entry =>
        if entry.generation = c.generation ∧ c.now < entry.validUntil then
          some (setCall s i { c with ok := entry.ok, pc := .returned })
        else some (setCall s i { c with pc := .stale })
    else none
  | .staleDelete i =>
    if (s.calls i).pc = .stale then
      some (loadAndDelete s i (cacheKey H (s.calls i)) .staleDeleted .lookup) else none
  | .staleCount i =>
    if (s.calls i).pc = .staleDeleted then some (countDown s i .lookup) else none
  | .lookup i =>
    let c := s.calls i
    if c.pc = .lookup then
      match s.inflight (cacheKey H c) with
      | some j => some (setCall s i { c with flight := j, pc := .waiting })
      | none =>
        some { setCall s i { c with pc := .acquire } with
          inflight := Function.update s.inflight (cacheKey H c) (some i) }
    else none
  | .wake i =>
    let c := s.calls i
    if c.pc = .waiting then
      (s.flights c.flight).map (fun ok => setCall s i { c with ok := ok, pc := .returned })
    else none
  | .acquire i =>
    if (s.calls i).pc = .acquire ∧ s.pbkdf2Sem < authPBKDF2Concurrency then
      some { setCall s i { s.calls i with pc := .hashing } with pbkdf2Sem := s.pbkdf2Sem + 1 }
    else none
  | .hash i =>
    let c := s.calls i
    if c.pc = .hashing then
      some { setCall s i { c with ok := checkPBKDF2 H c.user c.password, pc := .hashed } with
        pbkdf2Sem := s.pbkdf2Sem - 1 }
    else none
  | .build i =>
    let c := s.calls i
    if c.pc = .hashed then
      some (setCall s i { c with
        entry := ⟨s.now + (if c.ok then authSuccessTTL else authFailureTTL), c.generation, c.ok⟩
        pc := .built })
    else none
  | .loadOrStore i =>
    let c := s.calls i
    if c.pc = .built then
      match s.cache (cacheKey H c) with
      | some _ => some (setCall s i { c with pc := .overwriting })
      | none =>
        some { setCall s i { c with pc := .counting } with
          cache := Function.update s.cache (cacheKey H c) (some c.entry) }
    else none
  | .store i =>
    let c := s.calls i
    if c.pc = .overwriting then
      some { setCall s i { c with pc := .closing } with
        cache := Function.update s.cache (cacheKey H c) (some c.entry) }
    else none
  | .count i =>
    let c := s.calls i
    if c.pc = .counting then
      let pc := if s.cacheCount + 1 ≤ authCacheMaxEntries then Pc.closing else Pc.sweepStart
      some { setCall s i { c with pc := pc } with cacheCount := s.cacheCount + 1 }
    else none
  | .sweepBegin i =>
    let c := s.calls i
    if c.pc = .sweepStart then some (setCall s i { c with now := s.now, pc := .sweeping }) else none
  | .sweepVisit i key =>
    -- `Range` may stop at any point here, a superset of what it does
    let c := s.calls i
    if c.pc = .sweeping then
      match s.cache key with
      | some entry =>
        if entry.validUntil < c.now then
          some (setCall s i { c with sweepKey := key, pc := .sweepDelete })
        else some s
      | none => none
    else none
  | .sweepDelete i =>
    if (s.calls i).pc = .sweepDelete then
      some (loadAndDelete s i (s.calls i).sweepKey .sweepCount .sweeping) else none
  | .sweepCount i =>
    if (s.calls i).pc = .sweepCount then some (countDown s i .sweeping) else none
  | .sweepEnd i =>
    let c := s.calls i
    if c.pc = .sweeping then some (setCall s i { c with pc := .trimming }) else none
  | .trim i =>
    let c := s.calls i
    if c.pc = .trimming then
      some (setCall s i { c with
        pc := if authCacheMaxEntries < s.cacheCount then .trimRange else .closing })
    else none
  | .trimVisit i key =>
    let c := s.calls i
    if c.pc = .trimRange ∧ (s.cache key).isSome = true then
      some (setCall s i { c with sweepKey := key, pc := .trimDelete }) else none
  | .trimNone i =>
    let c := s.calls i
    if c.pc = .trimRange then some (setCall s i { c with pc := .closing }) else none
  | .trimDelete i =>
    if (s.calls i).pc = .trimDelete then
      some (loadAndDelete s i (s.calls i).sweepKey .trimCount .closing) else none
  | .trimCount i =>
    if (s.calls i).pc = .trimCount then some (countDown s i .trimming) else none
  | .closeFlight i =>
    let c := s.calls i
    if c.pc = .closing then
      some { setCall s i { c with pc := .returned } with
        inflight := Function.update s.inflight (cacheKey H c) none
        flights := Function.update s.flights i (some c.ok) }
    else none
  | .usersStore r table =>
    if s.reloads r = .notStarted then
      some { s with
        users := table
        usersBy := r
        published := Function.update s.published r table
        reloads := Function.update s.reloads r .stored }
    else none
  | .generationAdd r =>
    if s.reloads r = .stored then
      some { s with
        generation := s.generation + 1
        producedBy := Function.update s.producedBy (s.generation + 1) r
        reloads := Function.update s.reloads r .added }
    else none
  | .tick d => some { s with now := s.now + d }


/-! ## What a call knows -/

/-- Between `users.Load` and the last store of the verdict. -/
def hasUser : Pc → Bool
  | .usersLoaded | .generationLoaded | .clockRead | .stale | .staleDeleted | .lookup | .acquire
  | .hashing | .hashed | .built | .overwriting => true
  | _ => false

def hasGeneration : Pc → Bool
  | .generationLoaded | .clockRead | .stale | .staleDeleted | .lookup | .acquire
  | .hashing | .hashed | .built | .overwriting => true
  | _ => false

def hasVerdict : Pc → Bool
  | .hashed | .built | .overwriting => true
  | _ => false

def hasEntry : Pc → Bool
  | .built | .overwriting => true
  | _ => false

/-- Generation `g` belongs to the table of reload `r`, unless it is or will be out of date. -/
def Tagged (s : State) (r : ReloadId) (g : UInt64) : Prop :=
  g = s.generation → s.producedBy g = r ∨ s.reloads r = .stored

/-- When the generation is read, the reload that published the loaded table
produced it, or has not advanced the generation yet. -/
def LoadsTogether (s : State) : Event → Prop
  | .loadGeneration i => (s.calls i).pc = .usersLoaded →
      s.producedBy s.generation = (s.calls i).source ∨ s.reloads (s.calls i).source = .stored
  | _ => True

/-- A call on its way to the store in the cache, or an unexpired entry, has generation `g`. -/
def Carried (s : State) (g : UInt64) : Prop :=
  (∃ i, hasGeneration (s.calls i).pc = true ∧ (s.calls i).generation = g) ∨
    ∃ key entry, s.cache key = some entry ∧ s.now < entry.validUntil ∧ entry.generation = g

/-- The counter, which wraps around, does not come to a generation that is still carried. -/
def CountsPast (s : State) : Event → Prop
  | .generationAdd r => s.reloads r = .stored → ¬Carried s (s.generation + 1)
  | _ => True

/-- The cache agrees with the table of the current generation. -/
def Coherent (Occurs : Bytes → Prop) (s : State) : Prop :=
  (∀ r, s.reloads r ≠ .stored) → ∀ username password entry, Occurs password →
    s.cache ⟨username, H.sha256 password⟩ = some entry → s.now < entry.validUntil →
    entry.generation = s.generation →
    entry.ok = verdict H (s.published (s.producedBy s.generation)) username password

variable {H}
variable {Occurs : Bytes → Prop} {s t : State} {e : Event}

/-- What a call has in its locals. -/
structure Fine (H : Hashes) (Occurs : Bytes → Prop) (s : State) (c : Call) : Prop where
  occurs : c.pc ≠ .absent → Occurs c.password
  user : hasUser c.pc = true →
    s.reloads c.source ≠ .notStarted ∧ s.published c.source c.username = some c.user
  generation : hasGeneration c.pc = true → Tagged s c.source c.generation
  verdict : hasVerdict c.pc = true →
    c.ok = verdict H (s.published c.source) c.username c.password
  entry : hasEntry c.pc = true → c.entry.generation = c.generation ∧ c.entry.ok = c.ok

/-- Every cached verdict is that of some published table its tag goes with. -/
def CacheFine (H : Hashes) (Occurs : Bytes → Prop) (s : State) : Prop :=
  ∀ key entry, s.cache key = some entry → ∃ r password, Occurs password ∧
    key.password = H.sha256 password ∧ s.reloads r ≠ .notStarted ∧
    (s.now < entry.validUntil → Tagged s r entry.generation) ∧
    entry.ok = verdict H (s.published r) key.username password

structure Inv (H : Hashes) (Occurs : Bytes → Prop) (s : State) : Prop where
  users : s.users = s.published s.usersBy
  started : s.reloads s.usersBy ≠ .notStarted
  calls : ∀ i, Fine H Occurs s (s.calls i)
  cache : CacheFine H Occurs s

/-- What every step leaves as it was about the reloads. -/
structure Later (s t : State) : Prop where
  started : ∀ r, s.reloads r ≠ .notStarted →
    t.reloads r ≠ .notStarted ∧ t.published r = s.published r
  tagged : ∀ r g, s.reloads r ≠ .notStarted → t.generation = s.generation ∨ t.generation ≠ g →
    Tagged s r g → Tagged t r g

theorem later_of_eq (hr : t.reloads = s.reloads) (hp : t.published = s.published)
    (hg : t.generation = s.generation) (hb : t.producedBy = s.producedBy) : Later s t :=
  ⟨fun r h => by rw [hr, hp]; exact ⟨h, rfl⟩, fun r g _ _ h => by rwa [Tagged, hr, hg, hb]⟩

theorem later_usersStore {r : ReloadId} {table : Table} (h : step H s (.usersStore r table) = some t) :
    Later s t := by
  simp only [step] at h
  split at h
  · rename_i hn
    cases h
    have hne : ∀ x, s.reloads x ≠ .notStarted → x ≠ r := by
      rintro x hx rfl
      exact hx hn
    refine ⟨fun x hx => ?_, fun x g hx _ htag hg => ?_⟩
    · simp [Function.update_of_ne (hne x hx), hx]
    · rcases htag hg with hp | hst
      · exact Or.inl hp
      · refine Or.inr ?_
        change Function.update s.reloads r .stored x = .stored
        rw [Function.update_of_ne (hne x hx), hst]
  · cases h

theorem later_generationAdd {r : ReloadId} (h : step H s (.generationAdd r) = some t) :
    Later s t := by
  simp only [step] at h
  split at h
  · rename_i hst
    cases h
    refine ⟨fun x hx => ⟨?_, rfl⟩, fun x g hx hor htag hg => ?_⟩
    · by_cases hxr : x = r
      · subst hxr
        simp
      · simpa [Function.update_of_ne hxr] using hx
    · rcases hor with hsame | hne
      · exact absurd hsame (by simp)
      · exact absurd hg.symm hne
  · cases h

theorem fine_mono (hl : Later s t) {c : Call} (hsame : hasGeneration c.pc = true →
      t.generation = s.generation ∨ t.generation ≠ c.generation)
    (h : Fine H Occurs s c) : Fine H Occurs t c := by
  obtain ⟨ho, hu, hg, hv, he⟩ := h
  refine ⟨ho, fun hp => ?_, fun hp => ?_, fun hp => ?_, he⟩
  · obtain ⟨hs, hpub⟩ := hu hp
    rw [(hl.started _ hs).2]
    exact ⟨(hl.started _ hs).1, hpub⟩
  · have hup : hasUser c.pc = true := by
      revert hp
      cases c.pc <;> simp [hasGeneration, hasUser]
    exact hl.tagged _ _ (hu hup).1 (hsame hp) (hg hp)
  · have hup : hasUser c.pc = true := by
      revert hp
      cases c.pc <;> simp [hasVerdict, hasUser]
    rw [(hl.started _ (hu hup).1).2]
    exact hv hp

theorem cacheFine_mono (hl : Later s t) (hc : ∀ key entry, t.cache key = some entry →
      s.cache key = some entry) (hnow : s.now ≤ t.now)
    (hsame : ∀ key entry, s.cache key = some entry → t.now < entry.validUntil →
      t.generation = s.generation ∨ t.generation ≠ entry.generation)
    (h : CacheFine H Occurs s) : CacheFine H Occurs t := by
  intro key entry ht
  obtain ⟨r, p, ho, hk, hs, htag, hok⟩ := h key entry (hc key entry ht)
  refine ⟨r, p, ho, hk, (hl.started r hs).1, fun hvalid => ?_, ?_⟩
  · exact hl.tagged _ _ hs (hsame key entry (hc key entry ht) hvalid)
      (htag (Nat.lt_of_le_of_lt hnow hvalid))
  · rw [(hl.started r hs).2]
    exact hok

/-- A step that moves one call and neither reloads nor stores in the cache. -/
theorem inv_call (i : CallId) (hs : Inv H Occurs s) {c : Call}
    (hu : t.users = s.users) (hb : t.usersBy = s.usersBy) (hr : t.reloads = s.reloads)
    (hp : t.published = s.published) (hg : t.generation = s.generation)
    (hpb : t.producedBy = s.producedBy) (hcalls : t.calls = Function.update s.calls i c)
    (hcache : CacheFine H Occurs t) (hc : Fine H Occurs s c) : Inv H Occurs t := by
  have hl : Later s t := later_of_eq hr hp hg hpb
  refine ⟨by rw [hu, hp, hb]; exact hs.users, by rw [hr, hb]; exact hs.started, fun j => ?_, hcache⟩
  rw [hcalls]
  by_cases hj : j = i
  · subst hj
    rw [Function.update_self]
    exact fine_mono hl (fun _ => Or.inl hg) hc
  · rw [Function.update_of_ne hj]
    exact fine_mono hl (fun _ => Or.inl hg) (hs.calls j)

/-- The locals `Fine` speaks of. -/
def locals (c : Call) : Bytes × Bytes × AuthUser × ReloadId × UInt64 × Bool × CacheEntry :=
  (c.username, c.password, c.user, c.source, c.generation, c.ok, c.entry)

/-- Moving on from `p` to `q` keeps only what was known at `p`. -/
def follows (p q : Pc) : Bool :=
  p ≠ .absent && (!hasUser q || hasUser p) && (!hasGeneration q || hasGeneration p) &&
    (!hasVerdict q || hasVerdict p) && (!hasEntry q || hasEntry p)

theorem Fine.advance {c c' : Call} {p : Pc} (h : Fine H Occurs s c) (hp : c.pc = p)
    (hl : locals c' = locals c) (hf : follows p c'.pc = true) : Fine H Occurs s c' := by
  obtain ⟨ho, hu, hg, hv, he⟩ := h
  subst hp
  simp only [locals, Prod.mk.injEq] at hl
  obtain ⟨h1, h2, h3, h4, h5, h6, h7⟩ := hl
  simp only [follows, Bool.and_eq_true, Bool.or_eq_true, Bool.not_eq_true', decide_eq_true_eq] at hf
  obtain ⟨⟨⟨⟨f0, f1⟩, f2⟩, f3⟩, f4⟩ := hf
  rw [← h2] at ho
  rw [← h4, ← h3, ← h1] at hu
  rw [← h5, ← h4] at hg
  rw [← h6, ← h4, ← h1, ← h2] at hv
  rw [← h7, ← h5, ← h6] at he
  refine ⟨fun _ => ho f0, fun hq => hu ?_, fun hq => hg ?_, fun hq => hv ?_, fun hq => he ?_⟩
  · simpa [hq] using f1
  · simpa [hq] using f2
  · simpa [hq] using f3
  · simpa [hq] using f4

/-- A call that has returned knows nothing that matters any more. -/
theorem Fine.returned {c c' : Call} (h : Fine H Occurs s c) (h0 : c.pc ≠ .absent)
    (hp : c'.password = c.password) (hq : c'.pc = .returned) : Fine H Occurs s c' := by
  refine ⟨fun _ => by rw [hp]; exact h.occurs h0, ?_, ?_, ?_, ?_⟩
  all_goals
    rw [hq]
    intro hf
    cases hf

theorem cacheFine_same (h : CacheFine H Occurs s) (hr : t.reloads = s.reloads)
    (hp : t.published = s.published) (hg : t.generation = s.generation)
    (hpb : t.producedBy = s.producedBy) (hc : t.cache = s.cache) (hn : s.now ≤ t.now) :
    CacheFine H Occurs t :=
  cacheFine_mono (later_of_eq hr hp hg hpb) (fun _ _ hk => by rwa [hc] at hk) hn
    (fun _ _ _ _ => Or.inl hg) h

/-- Storing a built entry under its own key. -/
theorem cacheFine_store {i : CallId} {c : Call} (hs : Inv H Occurs s) (hc : s.calls i = c)
    (hb : hasEntry c.pc = true) (hr : t.reloads = s.reloads)
    (hp : t.published = s.published) (hg : t.generation = s.generation)
    (hpb : t.producedBy = s.producedBy) (hn : t.now = s.now)
    (hcache : t.cache = Function.update s.cache (cacheKey H c) (some c.entry)) :
    CacheFine H Occurs t := by
  have hl : Later s t := later_of_eq hr hp hg hpb
  have hf := hs.calls i
  rw [hc] at hf
  have hgen : hasUser c.pc = true ∧ hasGeneration c.pc = true ∧ hasVerdict c.pc = true ∧
      c.pc ≠ .absent := by
    revert hb
    cases c.pc <;> simp [hasEntry, hasUser, hasGeneration, hasVerdict]
  intro key entry hk
  rw [hcache] at hk
  by_cases hkey : key = cacheKey H c
  · subst hkey
    rw [Function.update_self] at hk
    cases hk
    obtain ⟨heg, heo⟩ := hf.entry hb
    have hst := (hf.user hgen.1).1
    refine ⟨c.source, c.password, hf.occurs hgen.2.2.2, rfl, (hl.started _ hst).1, fun _ => ?_, ?_⟩
    · rw [heg]
      exact hl.tagged _ _ hst (Or.inl hg) (hf.generation hgen.2.1)
    · rw [heo, hf.verdict hgen.2.2.1, hp]
      rfl
  · rw [Function.update_of_ne hkey] at hk
    obtain ⟨r, p, ho, hkp, hst, htag, hok⟩ := hs.cache key entry hk
    refine ⟨r, p, ho, hkp, (hl.started _ hst).1, fun hvalid => ?_, by rw [hp]; exact hok⟩
    rw [hn] at hvalid
    exact hl.tagged _ _ hst (Or.inl hg) (htag hvalid)

theorem cacheFine_delete {key : CacheKey} (h : CacheFine H Occurs s) (hr : t.reloads = s.reloads)
    (hp : t.published = s.published) (hg : t.generation = s.generation)
    (hpb : t.producedBy = s.producedBy) (hn : s.now ≤ t.now)
    (hc : t.cache = Function.update s.cache key none) : CacheFine H Occurs t := by
  refine cacheFine_mono (later_of_eq hr hp hg hpb) (fun k x hk => ?_) hn
    (fun _ _ _ _ => Or.inl hg) h
  rw [hc] at hk
  by_cases hkk : k = key
  · subst hkk
    simp at hk
  · rwa [Function.update_of_ne hkk] at hk

/-- A step that moves one call and leaves the tables and the cache alone. -/
theorem inv_move {i : CallId} {c : Call} {inflight : CacheKey → Option CallId}
    {flights : CallId → Option Bool} {sem : Nat} {count : Int} (hs : Inv H Occurs s)
    (hc : Fine H Occurs s c) :
    Inv H Occurs { setCall s i c with
      inflight := inflight
      flights := flights
      pbkdf2Sem := sem
      cacheCount := count } :=
  inv_call i hs rfl rfl rfl rfl rfl rfl rfl
    (cacheFine_same hs.cache rfl rfl rfl rfl rfl (Nat.le_refl _)) hc

/-- `LoadAndDelete` takes at most one entry away. -/
theorem inv_loadAndDelete {i : CallId} {key : CacheKey} {p deleted missed : Pc}
    (hs : Inv H Occurs s) (hp : (s.calls i).pc = p) (hd : follows p deleted = true)
    (hm : follows p missed = true) : Inv H Occurs (loadAndDelete s i key deleted missed) := by
  have hf := hs.calls i
  unfold loadAndDelete
  split
  · exact inv_call i hs rfl rfl rfl rfl rfl rfl rfl
      (cacheFine_delete hs.cache rfl rfl rfl rfl (Nat.le_refl _) rfl) (hf.advance hp rfl hd)
  · exact inv_move hs (hf.advance hp rfl hm)

theorem inv_countDown {i : CallId} {p pc : Pc} (hs : Inv H Occurs s) (hp : (s.calls i).pc = p)
    (hf : follows p pc = true) : Inv H Occurs (countDown s i pc) :=
  inv_move hs ((hs.calls i).advance hp rfl hf)

/-- The passwords of the run are among those that occur. -/
def Typed (Occurs : Bytes → Prop) : Event → Prop
  | .call _ _ password => Occurs password
  | _ => True

theorem inv_step (hs : Inv H Occurs s) (hc : LoadsTogether s e) (hn : CountsPast s e)
    (ho : Typed Occurs e) (h : step H s e = some t) : Inv H Occurs t := by
  cases e with
  | call i u p =>
    simp only [step] at h
    split at h
    · cases h
      refine inv_move hs ⟨fun _ => ho, ?_, ?_, ?_, ?_⟩
      all_goals
        intro hf
        cases hf
    · cases h
  | loadUsers i =>
    have hf := hs.calls i
    simp only [step] at h
    split at h
    · rename_i hpc
      split at h
      · cases h
        exact inv_move hs (hf.returned (by simp [hpc]) rfl rfl)
      · rename_i user hu
        cases h
        refine inv_move hs
          ⟨fun _ => hf.occurs (by simp [hpc]), fun _ => ⟨hs.started, ?_⟩, ?_, ?_, ?_⟩
        · rw [← hs.users]
          exact hu
        all_goals
          intro hf
          cases hf
    · cases h
  | loadGeneration i =>
    have hf := hs.calls i
    simp only [step] at h
    split at h
    · rename_i hpc
      cases h
      have hu := hf.user (by rw [hpc]; rfl)
      refine inv_move hs ⟨fun _ => hf.occurs (by simp [hpc]), fun _ => hu,
        fun _ _ => hc hpc, ?_, ?_⟩
      all_goals
        intro hf
        cases hf
    · cases h
  | readClock i | sweepBegin i | sweepEnd i | trimNone i =>
    have hf := hs.calls i
    simp only [step] at h
    split at h
    · rename_i hpc
      cases h
      exact inv_move hs (hf.advance hpc rfl rfl)
    · cases h
  | cacheLoad i =>
    have hf := hs.calls i
    simp only [step] at h
    split at h
    · rename_i hpc
      split at h
      · cases h
        exact inv_move hs (hf.advance hpc rfl rfl)
      · split at h
        · cases h
          exact inv_move hs (hf.returned (by simp [hpc]) rfl rfl)
        · cases h
          exact inv_move hs (hf.advance hpc rfl rfl)
    · cases h
  | staleDelete i | sweepDelete i | trimDelete i =>
    simp only [step] at h
    split at h
    · rename_i hpc
      cases h
      exact inv_loadAndDelete hs hpc rfl rfl
    · cases h
  | staleCount i | sweepCount i | trimCount i =>
    simp only [step] at h
    split at h
    · rename_i hpc
      cases h
      exact inv_countDown hs hpc rfl
    · cases h
  | lookup i =>
    have hf := hs.calls i
    simp only [step] at h
    split at h
    · rename_i hpc
      split at h
      all_goals
        cases h
        exact inv_move hs (hf.advance hpc rfl rfl)
    · cases h
  | wake i =>
    have hf := hs.calls i
    simp only [step] at h
    split at h
    · rename_i hpc
      obtain ⟨ok, -, rfl⟩ := Option.map_eq_some_iff.mp h
      exact inv_move hs (hf.returned (by simp [hpc]) rfl rfl)
    · cases h
  | acquire i =>
    have hf := hs.calls i
    simp only [step] at h
    split at h
    · rename_i hpc
      cases h
      exact inv_move hs (hf.advance hpc.1 rfl rfl)
    · cases h
  | hash i =>
    have hf := hs.calls i
    simp only [step] at h
    split at h
    · rename_i hpc
      cases h
      have hu := hf.user (by rw [hpc]; rfl)
      refine inv_move hs ⟨fun _ => hf.occurs (by simp [hpc]), fun _ => hu,
          fun _ => hf.generation (by rw [hpc]; rfl), fun _ => ?_, ?_⟩
      · simp only [AuthStore.verdict, hu.2]
      · intro hf
        cases hf
    · cases h
  | build i =>
    have hf := hs.calls i
    simp only [step] at h
    split at h
    · rename_i hpc
      cases h
      exact inv_move hs ⟨fun _ => hf.occurs (by simp [hpc]), fun _ => hf.user (by rw [hpc]; rfl),
          fun _ => hf.generation (by rw [hpc]; rfl), fun _ => hf.verdict (by rw [hpc]; rfl),
          fun _ => ⟨rfl, rfl⟩⟩
    · cases h
  | loadOrStore i =>
    have hf := hs.calls i
    simp only [step] at h
    split at h
    · rename_i hpc
      split at h
      · cases h
        exact inv_move hs (hf.advance hpc rfl rfl)
      · cases h
        exact inv_call i hs rfl rfl rfl rfl rfl rfl rfl
          (cacheFine_store hs rfl (by rw [hpc]; rfl) rfl rfl rfl rfl rfl rfl)
          (hf.advance hpc rfl rfl)
    · cases h
  | store i =>
    have hf := hs.calls i
    simp only [step] at h
    split at h
    · rename_i hpc
      cases h
      exact inv_call i hs rfl rfl rfl rfl rfl rfl rfl
        (cacheFine_store hs rfl (by rw [hpc]; rfl) rfl rfl rfl rfl rfl rfl)
          (hf.advance hpc rfl rfl)
    · cases h
  | count i =>
    have hf := hs.calls i
    simp only [step] at h
    split at h
    · rename_i hpc
      cases h
      refine inv_move hs (hf.advance hpc rfl ?_)
      by_cases hle : s.cacheCount + 1 ≤ authCacheMaxEntries
      · simp only [hle, ↓reduceIte]
        rfl
      · simp only [hle, ↓reduceIte]
        rfl
    · cases h
  | sweepVisit i key =>
    have hf := hs.calls i
    simp only [step] at h
    split at h
    · rename_i hpc
      split at h
      · split at h
        · cases h
          exact inv_move hs (hf.advance hpc rfl rfl)
        · cases h
          exact hs
      · cases h
    · cases h
  | trim i =>
    have hf := hs.calls i
    simp only [step] at h
    split at h
    · rename_i hpc
      cases h
      refine inv_move hs (hf.advance hpc rfl ?_)
      by_cases hlt : authCacheMaxEntries < s.cacheCount
      · simp only [hlt, ↓reduceIte]
        rfl
      · simp only [hlt, ↓reduceIte]
        rfl
    · cases h
  | trimVisit i key =>
    have hf := hs.calls i
    simp only [step] at h
    split at h
    · rename_i hpc
      cases h
      exact inv_move hs (hf.advance hpc.1 rfl rfl)
    · cases h
  | closeFlight i =>
    have hf := hs.calls i
    simp only [step] at h
    split at h
    · rename_i hpc
      cases h
      exact inv_move hs (hf.returned (by simp [hpc]) rfl rfl)
    · cases h
  | usersStore r table =>
    have hl := later_usersStore h
    simp only [step] at h
    split at h
    · cases h
      exact ⟨by simp, by simp, fun i => fine_mono hl (fun _ => Or.inl rfl) (hs.calls i),
        cacheFine_mono hl (fun _ _ hk => hk) (Nat.le_refl _) (fun _ _ _ _ => Or.inl rfl) hs.cache⟩
    · cases h
  | generationAdd r =>
    have hl := later_generationAdd h
    simp only [step] at h
    split at h
    · rename_i hst
      cases h
      have hfree := hn hst
      refine ⟨hs.users, (hl.started _ hs.started).1,
        fun i => fine_mono hl (fun hp => Or.inr fun hg => ?_) (hs.calls i),
        cacheFine_mono hl (fun _ _ hk => hk) (Nat.le_refl _)
          (fun key entry hk hvalid => Or.inr fun hg => ?_) hs.cache⟩
      · exact hfree (Or.inl ⟨i, hp, hg.symm⟩)
      · exact hfree (Or.inr ⟨key, entry, hk, hvalid, hg.symm⟩)
    · cases h
  | tick d =>
    cases h
    have hl : Later s { s with now := s.now + d } := later_of_eq rfl rfl rfl rfl
    exact ⟨hs.users, hs.started, fun i => fine_mono hl (fun _ => Or.inl rfl) (hs.calls i),
      cacheFine_same hs.cache rfl rfl rfl rfl rfl (Nat.le_add_right _ _)⟩

theorem inv_initial (table : Table) : Inv H Occurs (initial table) := by
  refine ⟨rfl, by simp [initial], fun i => ⟨?_, ?_, ?_, ?_, ?_⟩, ?_⟩
  · simp [initial, noCall]
  · intro hf
    cases hf
  · intro hf
    cases hf
  · intro hf
    cases hf
  · intro hf
    cases hf
  · intro key entry hk
    cases hk

theorem coherent_of_inv (hs : Inv H Occurs s)
    (hinj : ∀ p q, Occurs p → Occurs q → H.sha256 p = H.sha256 q → p = q) :
    Coherent H Occurs s := by
  intro hnone u p entry hp hk hvalid hg
  obtain ⟨r, q, hq, hkey, -, htag, hok⟩ := hs.cache _ entry hk
  have hpq : p = q := hinj p q hp hq hkey
  rcases htag hvalid hg with hr | hr
  · rw [hg] at hr
    rw [hok, hr, hpq]
  · exact absurd hr (hnone r)

/-- The passwords clients present in a run. -/
def passwords (es : List Event) : List Bytes :=
  es.filterMap (fun e => match e with
    | .call _ _ password => some password
    | _ => none)

/-- When every generation is read together with the table it belongs to, and none comes
round while it is carried, the cache agrees with the current table whenever no reload is
half done. -/
theorem coherent_of_loads (H : Hashes) (table : Table) (es : List Event)
    (hinj : ∀ p q, p ∈ passwords es → q ∈ passwords es → H.sha256 p = H.sha256 q → p = q)
    (hc : Meets (step H) LoadsTogether (initial table) es)
    (hn : Meets (step H) CountsPast (initial table) es) :
    Always (step H) (Coherent H (· ∈ passwords es)) (initial table) es := by
  have hin : ∀ e ∈ es, Typed (· ∈ passwords es) e := by
    intro e he
    cases e
    case call i u p => exact List.mem_filterMap.mpr ⟨_, he, rfl⟩
    all_goals trivial
  have htyped : Meets (step H) (fun _ e => Typed (· ∈ passwords es) e) (initial table) es :=
    meets_of_mem fun e he _ => hin e he
  refine @always_of_invariant _ _ _ _ (Inv H (· ∈ passwords es)) _ ?_ ?_ _ _
    (inv_initial table) (meets_and hc (meets_and hn htyped))
  · exact fun s e t hs hce h => inv_step hs hce.1 hce.2.1 hce.2.2 h
  · exact fun s hs => coherent_of_inv hs hinj

/-! ## A revoked password is accepted from the cache -/

/-- `alice` -/
def alice : Bytes := [97, 108, 105, 99, 101]

/-- `secret123` -/
def secret : Bytes := [115, 101, 99, 114, 101, 116, 49, 50, 51]

/-- `salt` -/
def salt : Bytes := [115, 97, 108, 116]

def secretDigest : Bytes :=
  [252, 247, 48, 182, 217, 82, 54, 236, 211, 201, 252, 45, 146, 215, 182, 178, 187, 6, 21, 20,
    150, 26, 236, 4, 29, 108, 122, 113, 146, 245, 146, 228]

/-- PBKDF2-HMAC-SHA256 of the secret, 1000 iterations. -/
def secretKey : Bytes :=
  [134, 35, 151, 138, 83, 84, 210, 39, 8, 222, 45, 102, 42, 61, 24, 123, 23, 23, 191, 122, 8,
    213, 163, 210, 90, 221, 95, 123, 122, 82, 80, 197]

/-- The two hashes on the one password of the runs below. -/
def hashes : Hashes where
  sha256 password := if password = secret then secretDigest else []
  pbkdf2 password s iterations length :=
    if password = secret ∧ s = salt ∧ iterations = 1000 ∧ length = 32 then secretKey else []

def aliceTable : Table := fun u => if u = alice then some ⟨1000, salt, secretKey⟩ else none

/-- PBKDF2-HMAC-SHA256 of `changed456`, 1000 iterations. -/
def changedKey : Bytes :=
  [116, 242, 253, 116, 19, 128, 51, 197, 64, 63, 117, 20, 173, 60, 50, 73, 14, 188, 114, 179, 193,
    0, 100, 119, 3, 254, 73, 47, 170, 128, 88, 153]

def changedTable : Table := fun u => if u = alice then some ⟨1000, salt, changedKey⟩ else none

/-- `alice` is checked, and checked again when a reload has stored its table. -/
def beforeAdd : List Event :=
  [.call 0 alice secret, .loadUsers 0, .loadGeneration 0, .readClock 0, .cacheLoad 0, .lookup 0,
    .acquire 0, .hash 0, .build 0, .loadOrStore 0, .count 0, .closeFlight 0,
    .usersStore 1 changedTable, .call 1 alice secret, .loadUsers 1, .loadGeneration 1]

/-- The second check still hits the cache, and a third one replaces the entry. -/
def afterAdd : List Event :=
  [.readClock 1, .cacheLoad 1, .call 2 alice secret, .loadUsers 2, .loadGeneration 2,
    .readClock 2, .cacheLoad 2, .staleDelete 2, .staleCount 2, .lookup 2, .acquire 2, .hash 2,
    .build 2, .loadOrStore 2, .count 2, .closeFlight 2]

def reloadedChecks : List Event := beforeAdd ++ .generationAdd 1 :: afterAdd

instance decidableLoadsTogether (s : State) : (e : Event) → Decidable (LoadsTogether s e)
  | .loadGeneration i => inferInstanceAs (Decidable ((s.calls i).pc = .usersLoaded →
      s.producedBy s.generation = (s.calls i).source ∨ s.reloads (s.calls i).source = .stored))
  | .call _ _ _ | .loadUsers _ | .readClock _ | .cacheLoad _ | .staleDelete _ | .staleCount _
  | .lookup _ | .wake _ | .acquire _ | .hash _ | .build _ | .loadOrStore _ | .store _ | .count _
  | .sweepBegin _ | .sweepVisit _ _ | .sweepDelete _ | .sweepCount _ | .sweepEnd _ | .trim _
  | .trimVisit _ _ | .trimNone _ | .trimDelete _ | .trimCount _ | .closeFlight _
  | .usersStore _ _ | .generationAdd _ | .tick _ => isTrue trivial

/-- One generation is carried when the reload advances the counter. -/
theorem beforeAdd_run : ∃ s, run (step hashes) (initial aliceTable) beforeAdd = some s ∧
    s.generation = 1 ∧ (s.calls 0).pc = .returned ∧ (s.calls 1).generation = 1 ∧
    (∀ i, s.calls (i + 2) = noCall) ∧
    s.cache = Function.update (fun _ => none) ⟨alice, secretDigest⟩ (some ⟨60000, 1, true⟩) :=
  ⟨_, rfl, rfl, rfl, rfl, fun _ => rfl, rfl⟩

theorem reloadedChecks_countsPast :
    Meets (step hashes) CountsPast (initial aliceTable) reloadedChecks := by
  obtain ⟨s, hs, hg, h0, h1, hrest, hcache⟩ := beforeAdd_run
  refine meets_append (meets_of_mem fun e he s => ?_) fun t ht => ?_
  · simp only [beforeAdd, List.mem_cons, List.not_mem_nil, or_false] at he
    rcases he with rfl | rfl | rfl | rfl | rfl | rfl | rfl | rfl | rfl | rfl | rfl | rfl | rfl |
      rfl | rfl | rfl <;> trivial
  · obtain rfl : s = t := Option.some.inj (hs.symm.trans ht)
    refine ⟨fun _ hcarried => ?_, fun u _ => meets_of_mem fun e he s => ?_⟩
    · rw [hg] at hcarried
      rcases hcarried with ⟨i, hp, hgen⟩ | ⟨key, entry, hk, -, hgen⟩
      · rcases i with _ | _ | i
        · rw [h0] at hp
          cases hp
        · exact absurd (h1.symm.trans hgen) (by decide)
        · rw [hrest] at hp
          cases hp
      · rw [hcache] at hk
        by_cases hkey : key = ⟨alice, secretDigest⟩
        · rw [hkey, Function.update_self] at hk
          cases hk
          exact absurd hgen (by decide)
        · rw [Function.update_of_ne hkey] at hk
          cases hk
    · simp only [afterAdd, List.mem_cons, List.not_mem_nil, or_false] at he
      rcases he with rfl | rfl | rfl | rfl | rfl | rfl | rfl | rfl | rfl | rfl | rfl | rfl | rfl |
        rfl | rfl | rfl <;> trivial

theorem coherent_reloaded :
    (run (step hashes) (initial aliceTable) reloadedChecks).map
        (fun s => (s.generation, s.cache ⟨alice, secretDigest⟩)) =
      some (2, some ⟨2000, 2, false⟩) ∧
    Always (step hashes) (Coherent hashes (· ∈ passwords reloadedChecks)) (initial aliceTable)
      reloadedChecks := by
  refine ⟨by decide +kernel, coherent_of_loads hashes aliceTable reloadedChecks ?_ (by decide +kernel)
    reloadedChecks_countsPast⟩
  have honly : ∀ p ∈ passwords reloadedChecks, p = secret := by decide +kernel
  intro p q hp hq _
  rw [honly p hp, honly q hq]

/-- `alice` is deleted by a reload between the two loads of her check. -/
def revokedCheck : List Event :=
  [.call 0 alice secret, .loadUsers 0, .usersStore 1 (fun _ => none), .generationAdd 1,
    .loadGeneration 0, .readClock 0, .cacheLoad 0, .lookup 0, .acquire 0, .hash 0, .build 0,
    .loadOrStore 0]

theorem revoked_cached : ¬∀ (H : Hashes) (table : Table) (es : List Event),
    (∀ p q, p ∈ passwords es → q ∈ passwords es → H.sha256 p = H.sha256 q → p = q) →
    Always (step H) (Coherent H (· ∈ passwords es)) (initial table) es := by
  intro h
  have hinj : ∀ p q, p ∈ passwords revokedCheck → q ∈ passwords revokedCheck →
      hashes.sha256 p = hashes.sha256 q → p = q := by
    intro p q hp hq _
    simp only [passwords, revokedCheck, List.filterMap_cons, List.filterMap_nil,
      List.mem_singleton] at hp hq
    rw [hp, hq]
  have hcoh := h hashes aliceTable revokedCheck hinj revokedCheck [] _ (by simp) rfl
  have hok := hcoh (fun r => ?_) alice secret ⟨60000, 2, true⟩ (by decide) (by decide) (by decide)
    (by decide)
  · exact absurd hok (by decide)
  · match r with
    | 0 => decide
    | 1 => decide
    | r + 2 =>
      change ReloadPc.notStarted ≠ .stored
      decide

end SplitProxy.AuthStore
