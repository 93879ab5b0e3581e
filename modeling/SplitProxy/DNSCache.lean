import SplitProxy.NetIP
import SplitProxy.Runs

/-!
# The DNS cache

`DNSCache.lookup` normalises the host it is given, and so do the `get` and the
`set` it calls with the result. The resolver is asked for the name between the
two, so an entry belongs to its key only where normalising again changes nothing.
-/
namespace SplitProxy.DNSCache

open GoText NetIP Runs

/-- The settings of `newDNSCache`; times are nanoseconds. -/
structure Config where
  maxEntries : Nat
  ttl : Nat
  negativeTTL : Nat
  one_le : 1 ≤ maxEntries
  ttl_pos : 0 < ttl
  negativeTTL_pos : 0 < negativeTTL

def dnsCacheTTL : Nat := 60000000000
def dnsNegativeTTL : Nat := 10000000000
def dnsCacheMaxEntries : Nat := 100000

/-- `newDNSCache`: limits that make no sense fall back to the defaults. -/
def newDNSCache (maxEntries ttl negativeTTL : Int) : Config where
  maxEntries := if maxEntries < 1 then 1 else maxEntries.toNat
  ttl := if ttl ≤ 0 then dnsCacheTTL else ttl.toNat
  negativeTTL := if negativeTTL ≤ 0 then dnsNegativeTTL else negativeTTL.toNat
  one_le := by split <;> omega
  ttl_pos := by
    split
    · decide
    · omega
  negativeTTL_pos := by
    split
    · decide
    · omega

structure DNSCacheEntry where
  ips : List Addr
  expiresAt : Nat
  ok : Bool
  deriving DecidableEq, Repr

/-- What the resolver said, none for a failure. -/
def DNSCacheEntry.answer (e : DNSCacheEntry) : Option (List Addr) :=
  if e.ok then some e.ips else none

abbrev Entries := List (Bytes × DNSCacheEntry)

/-- The cache, the clock, and every question the resolver was asked with its answer. -/
structure State where
  now : Nat
  entries : Entries
  asked : List (Bytes × Option (List Addr))
  deriving DecidableEq, Repr

def State.init : State := ⟨0, [], []⟩

/-- A function of the queried name and the time. -/
abbrev Resolver := Bytes → Nat → Option (List Addr)

def normalizeHost (host : Bytes) : Bytes := trimSuffix (toLower (trimSpace host)) [dot]

theorem normalizeHost_nil : normalizeHost [] = [] := by decide

attribute [irreducible] normalizeHost

def get (now : Nat) (entries : Entries) (host : Bytes) : Option (List Addr × Bool) :=
  let host := normalizeHost host
  if host = [] then none
  else match entries.lookup host with
    | some entry => if now < entry.expiresAt then some (entry.ips, entry.ok) else none
    | none => none

def removeExpired (now : Nat) (entries : Entries) : Entries :=
  entries.filter (fun p => now < p.2.expiresAt)

def delete (entries : Entries) (key : Bytes) : Entries := entries.filter (fun p => p.1 ≠ key)

def store (entries : Entries) (key : Bytes) (entry : DNSCacheEntry) : Entries :=
  (key, entry) :: delete entries key

/-- Room for a new key: expired entries go, then the key the iteration over the
map yields first, which is `victim`. -/
def makeRoom (c : Config) (now : Nat) (victim : Bytes) (entries : Entries) : Option Entries :=
  let kept := if c.maxEntries ≤ entries.length then removeExpired now entries else entries
  if c.maxEntries ≤ kept.length then
    if victim ∈ kept.map Prod.fst then some (delete kept victim) else none
  else some kept

/-- `set`, whose two readings of the clock are `now` and `later`. -/
def set (c : Config) (now later : Nat) (victim : Bytes) (entries : Entries) (host : Bytes)
    (ips : List Addr) (ok : Bool) : Option Entries :=
  let host := normalizeHost host
  if host = [] then some entries
  else
    let entry : DNSCacheEntry := ⟨ips, now + (if ok then c.ttl else c.negativeTTL), ok⟩
    if (entries.lookup host).isSome then some (store entries host entry)
    else (makeRoom c later victim entries).map (fun kept => store kept host entry)

/-- What happens around the cache while one lookup runs: the time that passes
before the second `get`, while the resolver works, and inside `set`. -/
structure Pass where
  before : Nat
  resolving : Nat
  setting : Nat
  victim : Bytes
  deriving DecidableEq, Repr

/-- `lookup`, without another one under way; the call under `singleflight` runs at once.
A failure is stored and returned as no addresses and `false`. -/
def lookup (c : Config) (resolver : Resolver) (s : State) (host : Bytes) (p : Pass) :
    Option (State × (List Addr × Bool)) :=
  let host := normalizeHost host
  if host = [] then some (s, ([], false))
  else match get s.now s.entries host with
    | some hit => some (s, hit)
    | none =>
      let now := s.now + p.before
      match get now s.entries host with
      | some hit => some ({ s with now := now }, hit)
      | none =>
        let answer := resolver host now
        let after := set c (now + p.resolving) (now + p.resolving + p.setting) p.victim s.entries
          host (answer.getD []) answer.isSome
        after.map (fun entries =>
          (⟨now + p.resolving + p.setting, entries, (host, answer) :: s.asked⟩,
            (answer.getD [], answer.isSome)))

inductive Event
  | lookup (host : Bytes) (p : Pass)
  | advance (d : Nat)
  | cleanup
  deriving DecidableEq, Repr

def step (c : Config) (resolver : Resolver) (s : State) : Event → Option State
  | .lookup host p => (lookup c resolver s host p).map Prod.fst
  | .advance d => some { s with now := s.now + d }
  | .cleanup => some { s with entries := removeExpired s.now s.entries }

/-- The hosts a run looks up, in order. -/
def hostsOf : List Event → List Bytes
  | [] => []
  | .lookup host _ :: es => host :: hostsOf es
  | .advance _ :: es => hostsOf es
  | .cleanup :: es => hostsOf es

/-- Every entry holds an answer the resolver gave for exactly the entry's key. -/
def Belongs (s : State) : Prop := ∀ p ∈ s.entries, (p.1, p.2.answer) ∈ s.asked

instance (s : State) : Decidable (Belongs s) := inferInstanceAs (Decidable (∀ _ ∈ _, _))

/-- Normalising again changes nothing, or leaves nothing to store under. -/
def Stable (host : Bytes) : Prop :=
  normalizeHost (normalizeHost host) = normalizeHost host ∨ normalizeHost (normalizeHost host) = []

instance (host : Bytes) : Decidable (Stable host) := inferInstanceAs (Decidable (_ ∨ _))

/-! ## What one operation leaves in the cache -/

theorem mem_delete {entries : Entries} {key : Bytes} {p : Bytes × DNSCacheEntry}
    (h : p ∈ delete entries key) : p ∈ entries := (List.mem_filter.mp h).1

theorem mem_removeExpired {entries : Entries} {now : Nat} {p : Bytes × DNSCacheEntry}
    (h : p ∈ removeExpired now entries) : p ∈ entries := (List.mem_filter.mp h).1

theorem mem_store {entries : Entries} {key : Bytes} {entry : DNSCacheEntry}
    {p : Bytes × DNSCacheEntry} (h : p ∈ store entries key entry) :
    p = (key, entry) ∨ p ∈ entries := by
  rcases List.mem_cons.mp h with h | h
  · exact Or.inl h
  · exact Or.inr (mem_delete h)

theorem makeRoom_some {c : Config} {now : Nat} {victim : Bytes} {entries kept : Entries}
    (h : makeRoom c now victim entries = some kept) : ∀ p ∈ kept, p ∈ entries := by
  intro p hp
  by_cases hf : c.maxEntries ≤ entries.length
  · simp only [makeRoom, if_pos hf] at h
    by_cases hg : c.maxEntries ≤ (removeExpired now entries).length
    · rw [if_pos hg] at h
      by_cases hv : victim ∈ (removeExpired now entries).map Prod.fst
      · rw [if_pos hv] at h
        cases h
        exact mem_removeExpired (mem_delete hp)
      · rw [if_neg hv] at h
        cases h
    · rw [if_neg hg] at h
      cases h
      exact mem_removeExpired hp
  · simp only [makeRoom, if_neg hf] at h
    cases h
    exact hp

/-- There is always a key to evict. -/
theorem makeRoom_enabled (c : Config) (now : Nat) (entries : Entries) :
    ∃ victim kept, makeRoom c now victim entries = some kept := by
  have hroom : ∀ l : Entries, ∃ victim, c.maxEntries ≤ l.length → victim ∈ l.map Prod.fst := by
    intro l
    cases l with
    | nil =>
      refine ⟨[], fun h => ?_⟩
      have := c.one_le
      rw [List.length_nil] at h
      omega
    | cons p l => exact ⟨p.1, fun _ => by simp⟩
  obtain ⟨victim, hv⟩ := hroom
    (if c.maxEntries ≤ entries.length then removeExpired now entries else entries)
  refine ⟨victim, ?_⟩
  simp only [makeRoom]
  by_cases hg : c.maxEntries ≤
      (if c.maxEntries ≤ entries.length then removeExpired now entries else entries).length
  · rw [if_pos hg, if_pos (hv hg)]
    exact ⟨_, rfl⟩
  · rw [if_neg hg]
    exact ⟨_, rfl⟩

/-- Everything a `set` can do: nothing when no name is left, else one entry under
the name normalised once more, beside entries that were there. -/
theorem set_some {c : Config} {now later : Nat} {victim host : Bytes} {entries after : Entries}
    {ips : List Addr} {ok : Bool} (h : set c now later victim entries host ips ok = some after) :
    (normalizeHost host = [] ∧ after = entries) ∨
    (normalizeHost host ≠ [] ∧ ∃ entry kept, entry.ips = ips ∧ entry.ok = ok ∧
      after = store kept (normalizeHost host) entry ∧ ∀ p ∈ kept, p ∈ entries) := by
  simp only [set] at h
  by_cases hn : normalizeHost host = []
  · rw [if_pos hn] at h
    cases h
    exact Or.inl ⟨hn, rfl⟩
  · right
    refine ⟨hn, ?_⟩
    rw [if_neg hn] at h
    by_cases hl : (entries.lookup (normalizeHost host)).isSome = true
    · rw [if_pos hl] at h
      cases h
      exact ⟨_, entries, rfl, rfl, rfl, fun p hp => hp⟩
    · rw [if_neg hl] at h
      obtain ⟨kept, hk, hs⟩ := Option.map_eq_some_iff.mp h
      exact ⟨_, kept, rfl, rfl, hs.symm, makeRoom_some hk⟩

/-- Everything a `lookup` can do: leave the entries alone, or ask the resolver
for the normalised name and `set` the answer. -/
theorem lookup_some {c : Config} {resolver : Resolver} {s t : State} {host : Bytes} {p : Pass}
    {r : List Addr × Bool} (h : lookup c resolver s host p = some (t, r)) :
    (t.entries = s.entries ∧ t.asked = s.asked) ∨
    ∃ now now' later answer, answer = resolver (normalizeHost host) now ∧
      t.asked = (normalizeHost host, answer) :: s.asked ∧
      set c now' later p.victim s.entries (normalizeHost host) (answer.getD []) answer.isSome =
        some t.entries := by
  simp only [lookup] at h
  split at h
  · cases h
    exact Or.inl ⟨rfl, rfl⟩
  · split at h
    · cases h
      exact Or.inl ⟨rfl, rfl⟩
    · split at h
      · cases h
        exact Or.inl ⟨rfl, rfl⟩
      · right
        obtain ⟨entries, he, ht⟩ := Option.map_eq_some_iff.mp h
        cases ht
        exact ⟨s.now + p.before, s.now + p.before + p.resolving,
          s.now + p.before + p.resolving + p.setting, _, rfl, rfl, he⟩

theorem answer_of_parts {entry : DNSCacheEntry} {answer : Option (List Addr)}
    (hi : entry.ips = answer.getD []) (ho : entry.ok = answer.isSome) : entry.answer = answer := by
  cases answer <;> simp [DNSCacheEntry.answer, hi, ho]

/-! ## Entries belong to their keys where hosts are stable -/

variable {c : Config} {resolver : Resolver}

theorem lookup_belongs {s t : State} {host : Bytes} {p : Pass} {r : List Addr × Bool}
    (hs : Stable host) (hb : Belongs s) (h : lookup c resolver s host p = some (t, r)) :
    Belongs t := by
  rcases lookup_some h with ⟨he, ha⟩ | ⟨_, _, _, answer, -, ha, hset⟩
  · intro q hq
    rw [he] at hq
    rw [ha]
    exact hb q hq
  · have hold : ∀ q ∈ s.entries, (q.1, q.2.answer) ∈ t.asked := by
      intro q hq
      rw [ha]
      exact List.mem_cons_of_mem _ (hb q hq)
    rcases set_some hset with ⟨-, he⟩ | ⟨hn, entry, kept, hi, ho, he, hk⟩
    · intro q hq
      rw [he] at hq
      exact hold q hq
    · intro q hq
      rw [he] at hq
      rcases mem_store hq with rfl | hq
      · rw [ha, answer_of_parts hi ho, hs.resolve_right hn]
        exact List.mem_cons_self
      · exact hold q (hk q hq)

theorem step_belongs {s t : State} {e : Event} (hs : ∀ h ∈ hostsOf [e], Stable h) (hb : Belongs s)
    (h : step c resolver s e = some t) : Belongs t := by
  cases e with
  | lookup host p =>
    obtain ⟨⟨t', r⟩, hl, ht⟩ := Option.map_eq_some_iff.mp h
    cases ht
    exact lookup_belongs (hs host (by simp [hostsOf])) hb hl
  | advance d =>
    cases h
    exact hb
  | cleanup =>
    cases h
    exact fun q hq => hb q (mem_removeExpired hq)

theorem hostsOf_append (es fs : List Event) :
    hostsOf (es ++ fs) = hostsOf es ++ hostsOf fs := by
  induction es with
  | nil => rfl
  | cons e es ih =>
    cases e with
    | lookup host p => simp [hostsOf, ih]
    | advance d => simpa [hostsOf] using ih
    | cleanup => simpa [hostsOf] using ih

theorem run_belongs {events : List Event} (hs : ∀ h ∈ hostsOf events, Stable h) {s t : State}
    (hb : Belongs s) (h : run (step c resolver) s events = some t) : Belongs t := by
  induction events generalizing s with
  | nil =>
    cases h
    exact hb
  | cons e es ih =>
    obtain ⟨m, hm, hr⟩ := run_cons_some h
    have happ : hostsOf (e :: es) = hostsOf [e] ++ hostsOf es := hostsOf_append [e] es
    rw [happ] at hs
    exact ih (fun x hx => hs x (List.mem_append_right _ hx))
      (step_belongs (fun x hx => hs x (List.mem_append_left _ hx)) hb hm) hr

/-! ## One unstable host is enough -/

/-- Every question of a run was answered by the resolver. -/
def Asked (resolver : Resolver) (s : State) : Prop :=
  ∀ name answer, (name, answer) ∈ s.asked → ∃ now, answer = resolver name now

theorem lookup_asked {s t : State} {host : Bytes} {p : Pass} {r : List Addr × Bool}
    (ha : Asked resolver s) (h : lookup c resolver s host p = some (t, r)) : Asked resolver t := by
  rcases lookup_some h with ⟨-, he⟩ | ⟨now, _, _, answer, hans, he, -⟩
  · intro name ans hq
    rw [he] at hq
    exact ha name ans hq
  · intro name ans hq
    rw [he] at hq
    rcases List.mem_cons.mp hq with hq | hq
    · obtain ⟨rfl, rfl⟩ := Prod.mk.inj hq
      exact ⟨now, hans⟩
    · exact ha name ans hq

theorem run_asked {s t : State} {events : List Event} (ha : Asked resolver s)
    (h : run (step c resolver) s events = some t) : Asked resolver t := by
  refine run_preserves (fun s e t ha hs => ?_) ha h
  cases e with
  | lookup host p =>
    obtain ⟨⟨t', r⟩, hl, ht⟩ := Option.map_eq_some_iff.mp hs
    cases ht
    exact lookup_asked ha hl
  | advance d =>
    cases hs
    exact ha
  | cleanup =>
    cases hs
    exact ha

/-- A `set` can always go through, and every lookup with it. -/
theorem set_enabled (c : Config) (now later : Nat) (entries : Entries) (host : Bytes) :
    ∃ victim, ∀ ips ok, ∃ after, set c now later victim entries host ips ok = some after := by
  obtain ⟨victim, kept, hk⟩ := makeRoom_enabled c later entries
  refine ⟨victim, fun ips ok => ?_⟩
  simp only [set]
  split
  · exact ⟨_, rfl⟩
  · split
    · exact ⟨_, rfl⟩
    · exact ⟨_, by rw [hk]; rfl⟩

/-- The host is looked up without time passing. -/
theorem lookup_enabled (c : Config) (resolver : Resolver) (s : State) (host : Bytes) :
    ∃ victim t r, lookup c resolver s host ⟨0, 0, 0, victim⟩ = some (t, r) := by
  obtain ⟨victim, hset⟩ := set_enabled c s.now s.now s.entries (normalizeHost host)
  refine ⟨victim, ?_⟩
  simp only [lookup, Nat.add_zero]
  split
  · exact ⟨_, _, rfl⟩
  · split
    · exact ⟨_, _, rfl⟩
    · obtain ⟨after, ha⟩ := hset ((resolver (normalizeHost host) s.now).getD [])
        (resolver (normalizeHost host) s.now).isSome
      rw [ha]
      exact ⟨_, _, rfl⟩

/-- Some run looks up these hosts in this order. -/
theorem run_enabled (c : Config) (resolver : Resolver) (hosts : List Bytes) (s : State) :
    ∃ events t, hostsOf events = hosts ∧ run (step c resolver) s events = some t := by
  induction hosts generalizing s with
  | nil => exact ⟨[], s, rfl, rfl⟩
  | cons host hosts ih =>
    obtain ⟨victim, t, r, hl⟩ := lookup_enabled c resolver s host
    obtain ⟨events, u, he, hr⟩ := ih t
    refine ⟨.lookup host ⟨0, 0, 0, victim⟩ :: events, u, by rw [hostsOf, he], ?_⟩
    rw [run_cons, step, hl]
    exact hr

/-- Once the entry under the twice normalised name has expired, looking the host
up stores under that name what the resolver says of another one. -/
theorem lookup_poisons (c : Config) (resolver : Resolver) (s : State) {host : Bytes}
    (hs : ¬Stable host) : ∃ d victim t r now,
      lookup c resolver { s with now := s.now + d } host ⟨0, 0, 0, victim⟩ = some (t, r) ∧
      ∃ entry, (normalizeHost (normalizeHost host), entry) ∈ t.entries ∧
        entry.answer = resolver (normalizeHost host) now := by
  simp only [Stable, not_or] at hs
  obtain ⟨-, hne⟩ := hs
  have hne' : normalizeHost host ≠ [] := by
    intro he
    rw [he, normalizeHost_nil] at hne
    exact hne rfl
  have hmiss : ∃ d, get (s.now + d) s.entries (normalizeHost host) = none := by
    cases hl : s.entries.lookup (normalizeHost (normalizeHost host)) with
    | none => exact ⟨0, by simp [get, hne, hl]⟩
    | some entry => exact ⟨entry.expiresAt, by simp [get, hne, hl]⟩
  obtain ⟨d, hd⟩ := hmiss
  obtain ⟨victim, hset⟩ := set_enabled c (s.now + d) (s.now + d) s.entries (normalizeHost host)
  obtain ⟨after, ha⟩ := hset ((resolver (normalizeHost host) (s.now + d)).getD [])
    (resolver (normalizeHost host) (s.now + d)).isSome
  have hl : lookup c resolver { s with now := s.now + d } host ⟨0, 0, 0, victim⟩ =
      some (⟨s.now + d, after, (normalizeHost host, resolver (normalizeHost host) (s.now + d)) ::
          s.asked⟩,
        ((resolver (normalizeHost host) (s.now + d)).getD [],
          (resolver (normalizeHost host) (s.now + d)).isSome)) := by
    simp only [lookup, Nat.add_zero, hne', hd, ha, ↓reduceIte, Option.map_some]
  refine ⟨d, victim, _, _, s.now + d, hl, ?_⟩
  simp only
  rcases set_some ha with ⟨hn, -⟩ | ⟨-, entry, kept, hi, ho, he, -⟩
  · exact absurd hn hne
  · rw [he, store]
    exact ⟨entry, List.mem_cons_self, answer_of_parts hi ho⟩

/-- The cache keeps every entry with its own name, whatever the resolver answers
and however time passes, exactly when every host looked up is stable. -/
theorem belongs_iff_stable (c : Config) (hosts : List Bytes) :
    (∀ resolver events s, hostsOf events <+: hosts →
      run (step c resolver) State.init events = some s → Belongs s) ↔
    ∀ host ∈ hosts, Stable host := by
  constructor
  · intro hall host hmem
    by_contra hs
    obtain ⟨before, after, rfl⟩ := List.append_of_mem hmem
    have hne := (not_or.mp hs).1
    -- a resolver that tells the two names apart
    obtain ⟨resolver, hres, hother⟩ : ∃ resolver : Resolver,
        (∀ now, resolver (normalizeHost host) now = some []) ∧
        ∀ now, resolver (normalizeHost (normalizeHost host)) now = none :=
      ⟨fun name _ => if name = normalizeHost host then some [] else none,
        fun _ => if_pos rfl, fun _ => if_neg hne⟩
    obtain ⟨events, s, he, hr⟩ := run_enabled c resolver before State.init
    obtain ⟨d, victim, t, r, now, hl, entry, hp, hans⟩ := lookup_poisons c resolver s hs
    have hrun : run (step c resolver) State.init
        (events ++ [.advance d, .lookup host ⟨0, 0, 0, victim⟩]) = some t := by
      refine run_join hr ?_
      rw [run_cons, step, Option.bind_some, run_cons, step, hl]
      rfl
    have hb := hall resolver _ t (by
      rw [hostsOf_append, he]
      exact ⟨after, by simp [hostsOf]⟩) hrun _ hp
    obtain ⟨now', hq⟩ := run_asked (by simp [Asked, State.init]) hrun _ _ hb
    rw [hans, hres, hother] at hq
    cases hq
  · intro hs resolver events s hpre hr
    exact run_belongs (fun h hh => hs h (hpre.subset hh)) (by simp [Belongs, State.init]) hr

/-- `example.com..` is looked up: the resolver is asked for `example.com.`, and its
failure is stored under `example.com`. -/
theorem poisoned : ∃ (resolver : Resolver) (events : List Event) (s : State),
    run (step (newDNSCache dnsCacheMaxEntries dnsCacheTTL dnsNegativeTTL) resolver) State.init
      events = some s ∧ ¬Belongs s :=
  ⟨fun _ _ => none,
    [.lookup [0x65, 0x78, 0x61, 0x6D, 0x70, 0x6C, 0x65, 0x2E, 0x63, 0x6F, 0x6D, 0x2E, 0x2E]
      ⟨0, 0, 0, []⟩],
    ⟨0, [([0x65, 0x78, 0x61, 0x6D, 0x70, 0x6C, 0x65, 0x2E, 0x63, 0x6F, 0x6D],
        ⟨[], dnsNegativeTTL, false⟩)],
      [([0x65, 0x78, 0x61, 0x6D, 0x70, 0x6C, 0x65, 0x2E, 0x63, 0x6F, 0x6D, 0x2E], none)]⟩,
    by decide +kernel, by decide +kernel⟩

end SplitProxy.DNSCache
