import SplitProxy.DNSFreshness
import SplitProxy.SingleFlight

/-!
# Concurrent DNS lookups

`DNSCache.lookup` as many connections call it at once: each step is one access to the
clock, to the map under its lock or to the group, and the resolver takes its time. The
group is the one of `golang.org/x/sync/singleflight`: it is a parameter, and what is
assumed of it is what its documentation says of `Do`. What was asked and stored is kept
in a log.
-/
namespace SplitProxy.SharedLookups

open Runs GoText NetIP DNSCache

abbrev CallId := Nat

/-- What `get` finds, and what `lookup` returns. -/
abbrev Value := List Addr × Bool

/-- A `singleflight.Group` as its callers see it. -/
structure Group where
  State : Type
  zero : State
  /-- `Do` is called for a key; it runs `fn`, or waits for the call that it names. -/
  enter : State → Bytes → CallId → State × Option CallId
  /-- The `fn` of a call has returned, and so does its `Do`. -/
  done : State → Bytes → CallId → Value → State
  /-- What `Do` gives to a call that has waited for this one. -/
  result : State → CallId → Option Value

/-- What the documentation of `Do` says: one execution is in flight for a key at a time, a
duplicate waits for the original to complete, and it receives the same result. -/
structure Group.Documented (G : Group) (view : G.State → Flights Bytes Value) : Prop where
  zero : view G.zero = .empty
  runs : ∀ g key i, (view g).calls key = none →
    (G.enter g key i).2 = none ∧ view (G.enter g key i).1 = (view g).lead key i
  waits : ∀ g key i j, (view g).calls key = some j →
    (G.enter g key i).2 = some j ∧ view (G.enter g key i).1 = view g
  completes : ∀ g key i value, (view g).calls key = some i →
    view (G.done g key i value) = (view g).finish key i value
  receives : ∀ g j, G.result g j = (view g).results j

inductive Pc where
  | absent
  | reading (clock : Nat)
  | missed
  | waiting (leader : CallId)
  | leading
  | rereading (clock : Nat)
  | resolving (since : Nat)
  | answered (since till : Nat) (answer : Option (List Addr))
  | stamped (since till : Nat) (answer : Option (List Addr)) (clock : Nat)
  | publishing (value : Value)
  | returned (value : Value)
  deriving DecidableEq, Repr

/-- A question to the resolver, from the moment it is asked to the answer, and the clock
reading its entry is dated by. -/
structure Question where
  name : Bytes
  since : Nat
  till : Nat
  stamp : Nat
  answer : Option (List Addr)
  deriving DecidableEq, Repr

def Question.value (q : Question) : Value := (q.answer.getD [], q.answer.isSome)

def Question.expires (c : Config) (q : Question) : Nat := q.stamp + lifetime c q.answer.isSome

def Question.entry (c : Config) (q : Question) : DNSCacheEntry :=
  ⟨q.answer.getD [], q.expires c, q.answer.isSome⟩

structure State (G : Group) where
  now : Nat
  entries : Entries
  group : G.State
  calls : CallId → Pc
  /-- the normalised host of each call -/
  keys : CallId → Bytes
  /-- what has been stored, the latest first -/
  log : List Question

variable {G : Group}

def initial (G : Group) : State G := ⟨0, [], G.zero, fun _ => .absent, fun _ => [], []⟩

def setCall (s : State G) (i : CallId) (pc : Pc) : State G :=
  { s with calls := Function.update s.calls i pc }

inductive Event where
  | call (i : CallId) (host : Bytes)
  | look (i : CallId)
  | enter (i : CallId)
  | reread (i : CallId)
  | relook (i : CallId)
  | answer (i : CallId) (answer : Option (List Addr))
  | stamp (i : CallId)
  | store (i : CallId) (victim : Bytes)
  | publish (i : CallId)
  | wake (i : CallId)
  | cleanup
  | advance (d : Nat)

def step (c : Config) (s : State G) : Event → Option (State G)
  | .call i host =>
    match s.calls i with
    | .absent =>
      let key := normalizeHost host
      some { setCall s i (if key = [] then .returned ([], false) else .reading s.now) with
        keys := Function.update s.keys i key }
    | _ => none
  | .look i =>
    match s.calls i with
    | .reading clock =>
      match DNSCache.get clock s.entries (s.keys i) with
      | some hit => some (setCall s i (.returned hit))
      | none => some (setCall s i .missed)
    | _ => none
  | .enter i =>
    match s.calls i with
    | .missed =>
      match G.enter s.group (s.keys i) i with
      | (group, some j) => some { setCall s i (.waiting j) with group := group }
      | (group, none) => some { setCall s i .leading with group := group }
    | _ => none
  | .reread i =>
    match s.calls i with
    | .leading => some (setCall s i (.rereading s.now))
    | _ => none
  | .relook i =>
    match s.calls i with
    | .rereading clock =>
      match DNSCache.get clock s.entries (s.keys i) with
      | some hit => some (setCall s i (.publishing hit))
      | none => some (setCall s i (.resolving s.now))
    | _ => none
  | .answer i answer =>
    match s.calls i with
    | .resolving since => some (setCall s i (.answered since s.now answer))
    | _ => none
  | .stamp i =>
    match s.calls i with
    | .answered since till answer => some (setCall s i (.stamped since till answer s.now))
    | _ => none
  | .store i victim =>
    match s.calls i with
    | .stamped since till answer clock =>
      (DNSCache.set c clock s.now victim s.entries (s.keys i) (answer.getD []) answer.isSome).map
        fun entries =>
          { setCall s i (.publishing (answer.getD [], answer.isSome)) with
            entries := entries
            log := ⟨s.keys i, since, till, clock, answer⟩ :: s.log }
    | _ => none
  | .publish i =>
    match s.calls i with
    | .publishing value =>
      some { setCall s i (.returned value) with group := G.done s.group (s.keys i) i value }
    | _ => none
  | .wake i =>
    match s.calls i with
    | .waiting j => (G.result s.group j).map fun value => setCall s i (.returned value)
    | _ => none
  | .cleanup => some { s with entries := removeExpired s.now s.entries }
  | .advance d => some { s with now := s.now + d }

/-! ## What a step does -/

section Step

variable {c : Config} {s t : State G} {e : Event}

inductive Move (c : Config) (s : State G) : Event → State G → Prop where
  | blank {i : CallId} {host : Bytes} (hpc : s.calls i = .absent) (hkey : normalizeHost host = []) :
      Move c s (.call i host)
        { setCall s i (.returned ([], false)) with
          keys := Function.update s.keys i (normalizeHost host) }
  | call {i : CallId} {host : Bytes} (hpc : s.calls i = .absent) (hkey : normalizeHost host ≠ []) :
      Move c s (.call i host)
        { setCall s i (.reading s.now) with
          keys := Function.update s.keys i (normalizeHost host) }
  | hit {i : CallId} {clock : Nat} {value : Value} (hpc : s.calls i = .reading clock)
      (hget : DNSCache.get clock s.entries (s.keys i) = some value) :
      Move c s (.look i) (setCall s i (.returned value))
  | miss {i : CallId} {clock : Nat} (hpc : s.calls i = .reading clock)
      (hget : DNSCache.get clock s.entries (s.keys i) = none) : Move c s (.look i) (setCall s i .missed)
  | join {i j : CallId} {group : G.State} (hpc : s.calls i = .missed)
      (henter : G.enter s.group (s.keys i) i = (group, some j)) :
      Move c s (.enter i) { setCall s i (.waiting j) with group := group }
  | lead {i : CallId} {group : G.State} (hpc : s.calls i = .missed)
      (henter : G.enter s.group (s.keys i) i = (group, none)) :
      Move c s (.enter i) { setCall s i .leading with group := group }
  | reread {i : CallId} (hpc : s.calls i = .leading) :
      Move c s (.reread i) (setCall s i (.rereading s.now))
  | rehit {i : CallId} {clock : Nat} {value : Value} (hpc : s.calls i = .rereading clock)
      (hget : DNSCache.get clock s.entries (s.keys i) = some value) :
      Move c s (.relook i) (setCall s i (.publishing value))
  | resolve {i : CallId} {clock : Nat} (hpc : s.calls i = .rereading clock)
      (hget : DNSCache.get clock s.entries (s.keys i) = none) :
      Move c s (.relook i) (setCall s i (.resolving s.now))
  | answer {i : CallId} {since : Nat} {answer : Option (List Addr)}
      (hpc : s.calls i = .resolving since) :
      Move c s (.answer i answer) (setCall s i (.answered since s.now answer))
  | stamp {i : CallId} {since till : Nat} {answer : Option (List Addr)}
      (hpc : s.calls i = .answered since till answer) :
      Move c s (.stamp i) (setCall s i (.stamped since till answer s.now))
  | store {i : CallId} {victim : Bytes} {since till clock : Nat} {answer : Option (List Addr)}
      {entries : Entries} (hpc : s.calls i = .stamped since till answer clock)
      (hset : DNSCache.set c clock s.now victim s.entries (s.keys i) (answer.getD []) answer.isSome =
        some entries) :
      Move c s (.store i victim)
        { setCall s i (.publishing (answer.getD [], answer.isSome)) with
          entries := entries
          log := ⟨s.keys i, since, till, clock, answer⟩ :: s.log }
  | publish {i : CallId} {value : Value} (hpc : s.calls i = .publishing value) :
      Move c s (.publish i)
        { setCall s i (.returned value) with group := G.done s.group (s.keys i) i value }
  | wake {i j : CallId} {value : Value} (hpc : s.calls i = .waiting j)
      (hresult : G.result s.group j = some value) :
      Move c s (.wake i) (setCall s i (.returned value))
  | cleanup : Move c s .cleanup { s with entries := removeExpired s.now s.entries }
  | advance {d : Nat} : Move c s (.advance d) { s with now := s.now + d }

theorem step_move (h : step c s e = some t) : Move c s e t := by
  cases e with
  | call i host =>
    simp only [step] at h
    split at h
    · rename_i hpc
      cases h
      split
      · exact .blank hpc ‹_›
      · exact .call hpc ‹_›
    · cases h
  | look i =>
    simp only [step] at h
    split at h
    · split at h <;> cases h
      · exact .hit ‹_› ‹_›
      · exact .miss ‹_› ‹_›
    · cases h
  | enter i =>
    simp only [step] at h
    split at h
    · split at h <;> cases h
      · exact .join ‹_› ‹_›
      · exact .lead ‹_› ‹_›
    · cases h
  | reread i =>
    simp only [step] at h
    split at h <;> cases h
    exact .reread ‹_›
  | relook i =>
    simp only [step] at h
    split at h
    · split at h <;> cases h
      · exact .rehit ‹_› ‹_›
      · exact .resolve ‹_› ‹_›
    · cases h
  | answer i answer =>
    simp only [step] at h
    split at h <;> cases h
    exact .answer ‹_›
  | stamp i =>
    simp only [step] at h
    split at h <;> cases h
    exact .stamp ‹_›
  | store i victim =>
    simp only [step] at h
    split at h
    · obtain ⟨entries, hset, rfl⟩ := Option.map_eq_some_iff.mp h
      exact .store ‹_› hset
    · cases h
  | publish i =>
    simp only [step] at h
    split at h <;> cases h
    exact .publish ‹_›
  | wake i =>
    simp only [step] at h
    split at h
    · obtain ⟨value, hresult, rfl⟩ := Option.map_eq_some_iff.mp h
      exact .wake ‹_› hresult
    · cases h
  | cleanup =>
    cases h
    exact .cleanup
  | advance d =>
    cases h
    exact .advance

end Step

/-! ## The flights -/

/-- What a call at this place has to do with the flights. -/
def roleAt (key : Bytes) : Pc → Role Bytes
  | .absent | .reading _ | .missed | .returned _ => .apart
  | .waiting leader => .waits key leader
  | .leading | .rereading _ | .resolving _ | .answered _ _ _ | .stamped _ _ _ _ | .publishing _ =>
    .leads key

def role (s : State G) (i : CallId) : Role Bytes := roleAt (s.keys i) (s.calls i)

section Flights

variable {view : G.State → Flights Bytes Value} {c : Config} {s t : State G} {e : Event}
  {i j : CallId}

theorem role_update {i : CallId} {pc : Pc} {group : G.State} {entries : Entries}
    {log : List Question} : role { s with
        calls := Function.update s.calls i pc, group := group, entries := entries, log := log } =
      Function.update (role s) i (roleAt (s.keys i) pc) := by
  funext j
  by_cases hj : j = i
  · subst hj
    simp [role]
  · simp [role, hj]

/-- The flights are sound, and who has a result for others has returned it. -/
structure Grouped (view : G.State → Flights Bytes Value) (s : State G) : Prop where
  flights : (view s.group).Sound (role s)
  results : ∀ i value, (view s.group).results i = some value → s.calls i = .returned value

theorem grouped_initial (hG : G.Documented view) : Grouped view (initial G) := by
  constructor
  · change (view G.zero).Sound _
    rw [hG.zero]
    exact Flights.sound_empty
  · intro i value h
    change (view G.zero).results i = _ at h
    rw [hG.zero] at h
    cases h

theorem results_update {pc : Pc} (hi : Grouped view s) (hpc : ∀ value, s.calls i ≠ .returned value) :
    ∀ j value, (view s.group).results j = some value →
      Function.update s.calls i pc j = .returned value := by
  intro j value h
  have hj := hi.results j value h
  have hne : j ≠ i := by
    rintro rfl
    exact hpc value hj
  rwa [Function.update_of_ne hne]

/-- A step of a call that leaves its role as it is. -/
theorem Grouped.stay {pc : Pc} {entries : Entries} {log : List Question} (hi : Grouped view s)
    (hpc : ∀ value, s.calls i ≠ .returned value)
    (hrole : roleAt (s.keys i) pc = roleAt (s.keys i) (s.calls i)) :
    Grouped view { s with calls := Function.update s.calls i pc, entries := entries, log := log } := by
  constructor
  · rw [role_update, hrole]
    change (view s.group).Sound (Function.update (role s) i (role s i))
    rw [Function.update_eq_self]
    exact hi.flights
  · exact results_update hi hpc

/-- Who is told to wait waits for the call in flight. -/
theorem Group.Documented.join (hG : G.Documented view) {g group : G.State} {key : Bytes}
    (h : G.enter g key i = (group, some j)) :
    (view g).calls key = some j ∧ view group = view g := by
  cases hk : (view g).calls key with
  | none =>
    have hruns := (hG.runs g key i hk).1
    rw [h] at hruns
    cases hruns
  | some l =>
    obtain ⟨hj, hview⟩ := hG.waits g key i l hk
    rw [h] at hj hview
    exact ⟨hj.symm, hview⟩

/-- Who runs `fn` is the first under its key. -/
theorem Group.Documented.lead (hG : G.Documented view) {g group : G.State} {key : Bytes}
    (h : G.enter g key i = (group, none)) :
    (view g).calls key = none ∧ view group = (view g).lead key i := by
  cases hk : (view g).calls key with
  | none =>
    have hview := (hG.runs g key i hk).2
    rw [h] at hview
    exact ⟨rfl, hview⟩
  | some l =>
    have hj := (hG.waits g key i l hk).1
    rw [h] at hj
    cases hj

theorem grouped_step (hG : G.Documented view) (hi : Grouped view s) (h : step c s e = some t) :
    Grouped view t := by
  cases step_move h with
  | @blank i host hpc hkey | @call i host hpc hkey =>
    constructor
    · have hsame : ∀ pc, roleAt (normalizeHost host) pc = .apart →
          role { setCall s i pc with keys := Function.update s.keys i (normalizeHost host) } =
            role s := by
        intro pc hap
        funext j
        by_cases hj : j = i
        · subst hj
          simp only [role, setCall, Function.update_self]
          rw [hap, hpc]
          rfl
        · simp [role, setCall, hj]
      rw [hsame _ rfl]
      exact hi.flights
    · exact results_update hi (by simp [hpc])
  | hit hpc hget | miss hpc hget | reread hpc | rehit hpc hget | resolve hpc hget | answer hpc
  | stamp hpc | store hpc hset =>
    exact hi.stay (by simp [hpc]) (by simp [hpc, roleAt])
  | @join i j group hpc henter =>
    obtain ⟨hj, hview⟩ := hG.join henter
    constructor
    · have hap : role s i = .apart := by simp [role, roleAt, hpc]
      have hrole : role { setCall s i (.waiting j) with group := group } =
          Function.update (role s) i (.waits (s.keys i) j) := role_update
      rw [hrole]
      change (view group).Sound _
      rw [hview]
      exact hi.flights.join hap hj
    · change ∀ l value, (view group).results l = some value → _
      rw [hview]
      exact results_update hi (by simp [hpc])
  | @lead i group hpc henter =>
    obtain ⟨hfree, hview⟩ := hG.lead henter
    have hap : role s i = .apart := by simp [role, roleAt, hpc]
    have hnone : (view s.group).results i = none := by
      rw [Option.eq_none_iff_forall_ne_some]
      intro value hvalue
      have hreturned := hi.results i value hvalue
      rw [hpc] at hreturned
      cases hreturned
    constructor
    · have hrole : role { setCall s i .leading with group := group } =
          Function.update (role s) i (.leads (s.keys i)) := role_update
      rw [hrole]
      change (view group).Sound _
      rw [hview]
      exact hi.flights.lead hap hfree hnone
    · change ∀ l value, (view group).results l = some value → _
      rw [hview]
      exact results_update hi (by simp [hpc])
  | @publish i value hpc =>
    have hl : role s i = .leads (s.keys i) := by simp [role, roleAt, hpc]
    have hview := hG.completes s.group (s.keys i) i value ((hi.flights.led _ _).mpr hl)
    constructor
    · have hrole : role { setCall s i (.returned value) with
            group := G.done s.group (s.keys i) i value } =
          Function.update (role s) i .apart := role_update
      rw [hrole]
      change (view (G.done _ _ _ _)).Sound _
      rw [hview]
      exact hi.flights.finish hl value
    · change ∀ l value', (view (G.done _ _ _ _)).results l = some value' → _
      rw [hview]
      intro j value' hj
      simp only [setCall]
      by_cases hji : j = i
      · subst hji
        simp only [Flights.finish, Function.update_self, Option.some.injEq] at hj
        rw [Function.update_self, hj]
      · simp only [Flights.finish, Function.update_of_ne hji] at hj
        rw [Function.update_of_ne hji]
        exact hi.results j value' hj
  | @wake i j value hpc hresult =>
    constructor
    · have hw : role s i = .waits (s.keys i) j := by simp [role, roleAt, hpc]
      have hrole : role (setCall s i (.returned value)) = Function.update (role s) i .apart :=
        role_update
      rw [hrole]
      exact hi.flights.wake hw
    · exact results_update hi (by simp [hpc])
  | cleanup | advance => exact ⟨hi.flights, hi.results⟩

end Flights

/-! ## Where answers come from -/

/-- The host is one that normalising again leaves alone. -/
def Steady (_ : State G) : Event → Prop
  | .call _ host => normalizeHost (normalizeHost host) = normalizeHost host
  | _ => True

/-- The call is under way. -/
def busy : Pc → Bool
  | .absent | .returned _ => false
  | _ => true

def holds : Pc → Option Value
  | .publishing value | .returned value => some value
  | _ => none

/-- The value is the answer to a question for this name. -/
def Answered (s : State G) (name : Bytes) (value : Value) : Prop :=
  ∃ q ∈ s.log, q.name = name ∧ value = q.value

structure Traced (c : Config) (s : State G) : Prop where
  keyed : Keyed s.entries
  bound : s.entries.length ≤ c.maxEntries
  plain : ∀ i, s.calls i ≠ .absent → normalizeHost (s.keys i) = s.keys i
  named : ∀ i, busy (s.calls i) = true → s.keys i ≠ []
  waiting : ∀ i j, s.calls i = .waiting j → s.calls j ≠ .absent ∧ s.keys j = s.keys i
  stored : ∀ k e, s.entries.lookup k = some e → ∃ q ∈ s.log, q.name = k ∧ e = q.entry c
  values : ∀ i value, holds (s.calls i) = some value → s.keys i ≠ [] →
    Answered s (s.keys i) value

section Traced

variable {view : G.State → Flights Bytes Value} {c : Config} {s t : State G} {e : Event}
  {i j : CallId} {key : Bytes} {clock : Nat}

theorem get_some {entries : Entries} {value : Value} (hplain : normalizeHost key = key)
    (h : DNSCache.get clock entries key = some value) :
    ∃ e, entries.lookup key = some e ∧ clock < e.expiresAt ∧ value = (e.ips, e.ok) := by
  simp only [DNSCache.get, hplain] at h
  split at h
  · cases h
  · split at h
    · rename_i e he
      split at h
      · cases h
        exact ⟨e, he, ‹_›, rfl⟩
      · cases h
    · cases h

theorem get_none {entries : Entries} (hplain : normalizeHost key = key) (hne : key ≠ [])
    (h : DNSCache.get clock entries key = none) {e : DNSCacheEntry} (he : entries.lookup key = some e) :
    e.expiresAt ≤ clock := by
  simp only [DNSCache.get, hplain, if_neg hne, he] at h
  split at h
  · cases h
  · exact Nat.le_of_not_lt ‹_›

theorem traced_initial (c : Config) : Traced c (initial G) := by
  constructor
  · exact List.nodup_nil
  · exact Nat.zero_le _
  · simp [initial]
  · simp [initial, busy]
  · simp [initial]
  · intro k e he
    cases he
  · simp [initial, holds]

/-- A step of one call that leaves the map alone. -/
theorem Traced.move {pc : Pc} {group : G.State} (hi : Traced c s)
    (hbusy : busy (s.calls i) = true) (hpc : pc ≠ .absent)
    (hwaits : ∀ j, pc = .waiting j → s.calls j ≠ .absent ∧ s.keys j = s.keys i)
    (hvalue : ∀ value, holds pc = some value → Answered s (s.keys i) value) :
    Traced c { s with calls := Function.update s.calls i pc, group := group } := by
  have hpresent : s.calls i ≠ .absent := by
    intro habsent
    rw [habsent] at hbusy
    cases hbusy
  have hkept : ∀ j, Function.update s.calls i pc j ≠ .absent → s.calls j ≠ .absent := by
    intro j hj
    by_cases hji : j = i
    · rwa [hji]
    · rwa [Function.update_of_ne hji] at hj
  constructor
  · exact hi.keyed
  · exact hi.bound
  · exact fun j hj => hi.plain j (hkept j hj)
  · intro j hj
    by_cases hji : j = i
    · rw [hji]
      exact hi.named i hbusy
    · simp only [Function.update_of_ne hji] at hj
      exact hi.named j hj
  · intro j l hj
    have hstays : s.calls l ≠ .absent ∧ s.keys l = s.keys j →
        Function.update s.calls i pc l ≠ .absent ∧ s.keys l = s.keys j := by
      rintro ⟨hl, hkey⟩
      refine ⟨?_, hkey⟩
      by_cases hli : l = i
      · subst hli
        rwa [Function.update_self]
      · rwa [Function.update_of_ne hli]
    apply hstays
    by_cases hji : j = i
    · subst hji
      simp only [Function.update_self] at hj
      exact hwaits l hj
    · simp only [Function.update_of_ne hji] at hj
      exact hi.waiting j l hj
  · exact hi.stored
  · intro j value hj hne
    by_cases hji : j = i
    · subst hji
      simp only [Function.update_self] at hj
      exact hvalue value hj
    · simp only [Function.update_of_ne hji] at hj
      exact hi.values j value hj hne

theorem Answered.cons {name : Bytes} {value : Value} (h : Answered s name value) {q : Question}
    (hlog : t.log = q :: s.log) : Answered t name value := by
  obtain ⟨q', hq', hname, hvalue⟩ := h
  refine ⟨q', ?_, hname, hvalue⟩
  rw [hlog]
  exact List.mem_cons_of_mem q hq'

/-- A hit is an answer. -/
theorem Traced.hit (hi : Traced c s) {value : Value} (hbusy : busy (s.calls i) = true)
    (hget : DNSCache.get clock s.entries (s.keys i) = some value) :
    Answered s (s.keys i) value := by
  have hpresent : s.calls i ≠ .absent := by
    intro habsent
    rw [habsent] at hbusy
    cases hbusy
  obtain ⟨e, he, -, rfl⟩ := get_some (hi.plain i hpresent) hget
  obtain ⟨q, hq, hname, rfl⟩ := hi.stored _ e he
  exact ⟨q, hq, hname, rfl⟩

/-- The map and the log are written, and no call moves. -/
theorem Traced.write (hi : Traced c s) {q : Question} {entries : Entries} (hkeyed : Keyed entries)
    (hbound : entries.length ≤ c.maxEntries)
    (hstored : ∀ k e, entries.lookup k = some e → ∃ q' ∈ q :: s.log, q'.name = k ∧ e = q'.entry c) :
    Traced c { s with entries := entries, log := q :: s.log } where
  keyed := hkeyed
  bound := hbound
  plain := hi.plain
  named := hi.named
  waiting := hi.waiting
  stored := hstored
  values := fun i value hvalue hne => (hi.values i value hvalue hne).cons rfl

/-- What is stored for the call is the answer to its question. -/
theorem store_entries (hi : Traced c s) {victim : Bytes} {since till : Nat}
    {answer : Option (List Addr)} {entries : Entries}
    (hpc : s.calls i = .stamped since till answer clock)
    (hset : DNSCache.set c clock s.now victim s.entries (s.keys i) (answer.getD []) answer.isSome =
      some entries) :
    ∃ kept, Kept c s.now victim (s.keys i) s.entries kept ∧
      entries = DNSCache.store kept (s.keys i)
        (Question.entry c ⟨s.keys i, since, till, clock, answer⟩) := by
  have hplain := hi.plain i (by simp [hpc])
  have hne := hi.named i (by simp [hpc, busy])
  obtain ⟨hblank, -⟩ | ⟨-, kept, hkept, rfl⟩ := set_keeps hset hi.keyed hi.bound
  · rw [hplain] at hblank
    exact absurd hblank hne
  · rw [hplain] at hkept ⊢
    exact ⟨kept, hkept, rfl⟩

theorem Traced.store (hi : Traced c s) {victim : Bytes} {since till : Nat}
    {answer : Option (List Addr)} {entries : Entries}
    (hpc : s.calls i = .stamped since till answer clock)
    (hset : DNSCache.set c clock s.now victim s.entries (s.keys i) (answer.getD []) answer.isSome =
      some entries) :
    Traced c { setCall s i (.publishing (answer.getD [], answer.isSome)) with
      entries := entries
      log := ⟨s.keys i, since, till, clock, answer⟩ :: s.log } := by
  obtain ⟨kept, hkept, rfl⟩ := store_entries hi hpc hset
  have hwritten := @Traced.write G c s hi ⟨s.keys i, since, till, clock, answer⟩ _
    (hkept.keyed.store (s.keys i) (Question.entry c ⟨s.keys i, since, till, clock, answer⟩))
    (Nat.succ_le_of_lt hkept.room) fun k e he => by
      rw [lookup_store] at he
      split at he
      · rename_i hk
        cases he
        exact ⟨_, List.mem_cons_self, hk.symm, rfl⟩
      · obtain ⟨q, hq, hname, hentry⟩ := hi.stored k e (hkept.old k e he)
        exact ⟨q, List.mem_cons_of_mem _ hq, hname, hentry⟩
  have hbusy : busy (s.calls i) = true := by simp [hpc, busy]
  refine hwritten.move hbusy (by simp) (by simp) fun value hvalue => ?_
  cases hvalue
  exact ⟨_, List.mem_cons_self, rfl, rfl⟩

theorem Traced.call (hi : Traced c s) {host : Bytes} {pc : Pc} (hpc : s.calls i = .absent)
    (hsteady : normalizeHost (normalizeHost host) = normalizeHost host)
    (hbusy : busy pc = true → normalizeHost host ≠ [])
    (hwaits : ∀ j, pc ≠ .waiting j)
    (hvalue : ∀ value, holds pc = some value → normalizeHost host = []) :
    Traced c { setCall s i pc with keys := Function.update s.keys i (normalizeHost host) } := by
  have hkeys : ∀ j, s.calls j ≠ .absent →
      Function.update s.keys i (normalizeHost host) j = s.keys j := by
    intro j hj
    refine Function.update_of_ne ?_ _ _
    rintro rfl
    exact hj hpc
  constructor
  · exact hi.keyed
  · exact hi.bound
  · intro j hj
    simp only [setCall] at hj ⊢
    by_cases hji : j = i
    · rw [hji, Function.update_self, hsteady]
    · rw [Function.update_of_ne hji] at hj ⊢
      exact hi.plain j hj
  · intro j hj
    simp only [setCall] at hj ⊢
    by_cases hji : j = i
    · subst hji
      rw [Function.update_self] at hj ⊢
      exact hbusy hj
    · rw [Function.update_of_ne hji] at hj ⊢
      exact hi.named j hj
  · intro j l hj
    simp only [setCall] at hj ⊢
    by_cases hji : j = i
    · subst hji
      rw [Function.update_self] at hj
      exact absurd hj (hwaits l)
    · rw [Function.update_of_ne hji] at hj
      obtain ⟨hl, hkey⟩ := hi.waiting j l hj
      have hli : l ≠ i := by
        rintro rfl
        exact hl hpc
      rw [Function.update_of_ne hli, hkeys l hl, Function.update_of_ne hji]
      exact ⟨hl, hkey⟩
  · exact hi.stored
  · intro j value hj hname
    simp only [setCall] at hj hname ⊢
    by_cases hji : j = i
    · subst hji
      rw [Function.update_self] at hj hname
      exact absurd (hvalue value hj) hname
    · rw [Function.update_of_ne hji] at hj hname ⊢
      exact hi.values j value hj hname

theorem of_leads (h : role s j = .leads key) : s.calls j ≠ .absent ∧ s.keys j = key := by
  unfold role at h
  cases hpc : s.calls j with
  | absent | reading | missed | waiting | returned =>
    rw [hpc] at h
    cases h
  | leading | rereading | resolving | answered | stamped | publishing =>
    rw [hpc] at h
    exact ⟨by simp, Role.leads.inj h⟩

theorem traced_step (hG : G.Documented view) (hg : Grouped view s) (hi : Traced c s)
    (hC : Steady s e) (h : step c s e = some t) : Traced c t := by
  cases step_move h with
  | blank hpc hkey =>
    exact hi.call hpc hC (by simp [busy]) (by simp) fun _ _ => hkey
  | call hpc hkey =>
    exact hi.call hpc hC (fun _ => hkey) (by simp) (by simp [holds])
  | @hit i clock value hpc hget | @rehit i clock value hpc hget =>
    have hbusy : busy (s.calls i) = true := by rw [hpc]; rfl
    refine hi.move hbusy (by simp) (by simp) fun value hvalue => ?_
    cases hvalue
    exact hi.hit hbusy hget
  | miss hpc hget | reread hpc | resolve hpc hget | answer hpc | stamp hpc =>
    exact hi.move (by rw [hpc]; rfl) (by simp) (by simp) (by simp [holds])
  | lead hpc => exact hi.move (by rw [hpc]; rfl) (by simp) (by simp) (by simp [holds])
  | @join i j group hpc henter =>
    have hleads := (hg.flights.led (s.keys i) j).mp (hG.join henter).1
    refine hi.move (by rw [hpc]; rfl) (by simp) (fun l hl => ?_) (by simp [holds])
    cases hl
    exact of_leads hleads
  | store hpc hset => exact hi.store hpc hset
  | publish hpc =>
    refine hi.move (by rw [hpc]; rfl) (by simp) (by simp) fun value hvalue => ?_
    cases hvalue
    exact hi.values _ _ (by rw [hpc]; rfl) (hi.named _ (by rw [hpc]; rfl))
  | @wake i j value hpc hresult =>
    refine hi.move (by rw [hpc]; rfl) (by simp) (by simp) fun value' hvalue => ?_
    cases hvalue
    have hkey := (hi.waiting i j hpc).2
    have hne := hi.named i (by rw [hpc]; rfl)
    rw [← hkey] at hne ⊢
    rw [hG.receives] at hresult
    exact hi.values j value (by rw [hg.results j value hresult]; rfl) hne
  | cleanup =>
    refine ⟨hi.keyed.filter _, Nat.le_trans (List.length_filter_le _ _) hi.bound, hi.plain, hi.named,
      hi.waiting, fun k e he => ?_, hi.values⟩
    exact hi.stored k e ((lookup_removeExpired hi.keyed).mp he).1
  | advance => exact ⟨hi.keyed, hi.bound, hi.plain, hi.named, hi.waiting, hi.stored, hi.values⟩

end Traced

/-! ## How often the resolver is asked -/

/-- A store gives up no entry that is still fresh. -/
def NoEviction (c : Config) (s : State G) : Event → Prop
  | .store i _ => evicts c s.now s.entries (s.keys i) = false
  | _ => True

/-- When the question of a call was asked, while it is not stored. -/
def sinceOf : Pc → Option Nat
  | .resolving since | .answered since _ _ | .stamped since _ _ _ => some since
  | _ => none

/-- An answer is in the map until it expires, and no question is asked about its name
before that. -/
structure Spaced (c : Config) (s : State G) : Prop where
  spaced : s.log.Pairwise fun q q' => q.name = q'.name → q'.expires c ≤ q.since
  current : ∀ q ∈ s.log, s.entries.lookup q.name = some (q.entry c) ∨ q.expires c ≤ s.now
  asking : ∀ i since, sinceOf (s.calls i) = some since →
    since ≤ s.now ∧ ∀ q ∈ s.log, q.name = s.keys i → q.expires c ≤ since
  clock : ∀ i clock, s.calls i = .rereading clock → clock ≤ s.now

section Spaced

variable {view : G.State → Flights Bytes Value} {c : Config} {s t : State G} {e : Event}
  {i j : CallId}

theorem spaced_initial (c : Config) : Spaced c (initial G) := by
  constructor
  · exact List.Pairwise.nil
  · intro q hq
    cases hq
  · intro i since hi
    cases hi
  · intro i clock hi
    cases hi

/-- A step of one call that leaves the map and the log alone. -/
theorem Spaced.move {pc : Pc} {keys : CallId → Bytes} {group : G.State}
    (hi : Spaced c s) (hkeys : ∀ j, j ≠ i → keys j = s.keys j)
    (hasking : ∀ since, sinceOf pc = some since →
      since ≤ s.now ∧ ∀ q ∈ s.log, q.name = keys i → q.expires c ≤ since)
    (hclock : ∀ clock, pc = .rereading clock → clock ≤ s.now) :
    Spaced c { s with calls := Function.update s.calls i pc, keys := keys, group := group } := by
  constructor
  · exact hi.spaced
  · exact hi.current
  · intro j since hj
    by_cases hji : j = i
    · subst hji
      simp only [Function.update_self] at hj
      exact hasking since hj
    · simp only [Function.update_of_ne hji] at hj ⊢
      rw [hkeys j hji]
      exact hi.asking j since hj
  · intro j clock hj
    by_cases hji : j = i
    · subst hji
      simp only [Function.update_self] at hj
      exact hclock clock hj
    · simp only [Function.update_of_ne hji] at hj
      exact hi.clock j clock hj

/-- A miss shows that what was known has expired. -/
theorem Spaced.missed (hi : Spaced c s) (ht : Traced c s) {clock : Nat}
    (hpc : s.calls i = .rereading clock)
    (hget : DNSCache.get clock s.entries (s.keys i) = none) :
    ∀ q ∈ s.log, q.name = s.keys i → q.expires c ≤ s.now := by
  intro q hq hname
  have hplain := ht.plain i (by simp [hpc])
  have hne := ht.named i (by simp [hpc, busy])
  rcases hi.current q hq with hentry | hexpired
  · rw [hname] at hentry
    have hold := get_none hplain hne hget hentry
    exact Nat.le_trans hold (hi.clock i clock hpc)
  · exact hexpired

theorem Spaced.store (hi : Spaced c s) (ht : Traced c s) (hg : Grouped view s) {victim : Bytes}
    {since till clock : Nat} {answer : Option (List Addr)} {entries : Entries}
    (hpc : s.calls i = .stamped since till answer clock)
    (hset : DNSCache.set c clock s.now victim s.entries (s.keys i) (answer.getD []) answer.isSome =
      some entries)
    (hroom : evicts c s.now s.entries (s.keys i) = false) :
    Spaced c { setCall s i (.publishing (answer.getD [], answer.isSome)) with
      entries := entries
      log := ⟨s.keys i, since, till, clock, answer⟩ :: s.log } := by
  obtain ⟨kept, hkept, rfl⟩ := store_entries ht hpc hset
  obtain ⟨hsince, hbefore⟩ := hi.asking i since (by rw [hpc]; rfl)
  constructor
  · rw [List.pairwise_cons]
    exact ⟨fun q hq hname => hbefore q hq hname.symm, hi.spaced⟩
  · intro q hq
    rw [lookup_store]
    rcases List.mem_cons.mp hq with rfl | hq
    · exact Or.inl (if_pos rfl)
    · by_cases hname : q.name = s.keys i
      · exact Or.inr (Nat.le_trans (hbefore q hq hname) hsince)
      · rw [if_neg hname]
        rcases hi.current q hq with hentry | hexpired
        · by_cases hfresh : s.now < q.expires c
          · left
            exact hkept.fresh _ _ hentry hfresh (by rw [hroom]; simp)
          · exact Or.inr (Nat.le_of_not_lt hfresh)
        · exact Or.inr hexpired
  · intro j since' hj
    simp only [setCall] at hj ⊢
    by_cases hji : j = i
    · subst hji
      rw [Function.update_self] at hj
      cases hj
    · rw [Function.update_of_ne hji] at hj
      obtain ⟨hle, hothers⟩ := hi.asking j since' hj
      refine ⟨hle, fun q hq hname => ?_⟩
      rcases List.mem_cons.mp hq with rfl | hq
      · -- two calls that ask under one key are one
        have hlead : role s i = .leads (s.keys i) := by simp [role, roleAt, hpc]
        have hlead' : role s j = .leads (s.keys i) := by
          simp only at hname
          rw [role, ← hname]
          cases hpcj : s.calls j with
          | resolving | answered | stamped => rfl
          | absent | reading | missed | waiting | leading | rereading | publishing | returned =>
            rw [hpcj] at hj
            cases hj
        exact absurd (hg.flights.unique hlead' hlead) hji
      · exact hothers q hq hname
  · intro j clock' hj
    simp only [setCall] at hj
    by_cases hji : j = i
    · subst hji
      rw [Function.update_self] at hj
      cases hj
    · rw [Function.update_of_ne hji] at hj
      exact hi.clock j clock' hj

theorem spaced_step (hi : Spaced c s) (ht : Traced c s) (hg : Grouped view s)
    (hC : NoEviction c s e) (h : step c s e = some t) : Spaced c t := by
  cases step_move h with
  | blank hpc hkey | call hpc hkey =>
    exact hi.move (fun j hj => Function.update_of_ne hj _ _) (by simp [sinceOf]) (by simp)
  | hit hpc hget | miss hpc hget | join hpc | rehit hpc hget | wake hpc hresult | lead hpc
  | publish hpc => exact hi.move (fun _ _ => rfl) (by simp [sinceOf]) (by simp)
  | reread hpc =>
    refine hi.move (fun _ _ => rfl) (by simp [sinceOf]) fun clock hclock => ?_
    cases hclock
    exact Nat.le_refl _
  | resolve hpc hget =>
    refine hi.move (fun _ _ => rfl) (fun since hsince => ?_) (by simp)
    cases hsince
    exact ⟨Nat.le_refl _, hi.missed ht hpc hget⟩
  | answer hpc | stamp hpc =>
    refine hi.move (fun _ _ => rfl) (fun since hsince => ?_) (by simp)
    cases hsince
    exact hi.asking _ _ (by rw [hpc]; rfl)
  | store hpc hset => exact hi.store ht hg hpc hset hC
  | cleanup =>
    refine ⟨hi.spaced, fun q hq => ?_, hi.asking, hi.clock⟩
    rcases hi.current q hq with hentry | hexpired
    · by_cases hfresh : s.now < q.expires c
      · exact Or.inl ((lookup_removeExpired ht.keyed).mpr ⟨hentry, hfresh⟩)
      · exact Or.inr (Nat.le_of_not_lt hfresh)
    · exact Or.inr hexpired
  | advance =>
    refine ⟨hi.spaced, fun q hq => ?_, fun i since hi' => ?_, fun i clock hi' => ?_⟩
    · rcases hi.current q hq with hentry | hexpired
      · exact Or.inl hentry
      · exact Or.inr (Nat.le_trans hexpired (Nat.le_add_right _ _))
    · obtain ⟨hle, hothers⟩ := hi.asking i since hi'
      exact ⟨Nat.le_trans hle (Nat.le_add_right _ _), hothers⟩
    · exact Nat.le_trans (hi.clock i clock hi') (Nat.le_add_right _ _)

end Spaced

variable {view : G.State → Flights Bytes Value} {c : Config} {s : State G} {es : List Event}

theorem traced_run (hG : G.Documented view) (hm : Meets (step c) Steady (initial G) es)
    (hr : run (step c) (initial G) es = some s) : Traced c s := by
  have hboth : Grouped view s ∧ Traced c s := run_invariant (C := Steady)
    (I := fun a => Grouped view a ∧ Traced c a)
    (fun a e b hi hC hab => ⟨grouped_step hG hi.1 hab, traced_step hG hi.1 hi.2 hC hab⟩)
    ⟨grouped_initial hG, traced_initial c⟩ hm hr
  exact hboth.2

/-- However many calls overlap, while no fresh entry has to be given up the next question
about a name is asked when the answer to the last has expired. -/
theorem asked_once (hG : G.Documented view)
    (hm : Meets (step c) (fun a e => Steady a e ∧ NoEviction c a e) (initial G) es)
    (hr : run (step c) (initial G) es = some s) :
    (s.log.Pairwise fun q q' => q.name = q'.name → q'.expires c ≤ q.since) ∧
      ∀ i since, sinceOf (s.calls i) = some since → ∀ q ∈ s.log, q.name = s.keys i →
        q.expires c ≤ since := by
  have hall : Grouped view s ∧ Traced c s ∧ Spaced c s := by
    refine run_invariant (C := fun a e => Steady a e ∧ NoEviction c a e)
      (I := fun a => Grouped view a ∧ Traced c a ∧ Spaced c a) (fun a e b hi hC hab => ?_)
      ⟨grouped_initial hG, traced_initial c, spaced_initial c⟩ hm hr
    exact ⟨grouped_step hG hi.1 hab, traced_step hG hi.1 hi.2.1 hC.1 hab,
      spaced_step hi.2.2 hi.2.1 hi.1 hC.2 hab⟩
  exact ⟨hall.2.2.spaced, fun i since hi => (hall.2.2.asking i since hi).2⟩

/-- A lookup answers what the resolver answered about the name itself, to this call or
to another; only a blank name gets nothing without a question. -/
theorem lookup_answers (hG : G.Documented view) (hm : Meets (step c) Steady (initial G) es)
    (hr : run (step c) (initial G) es = some s) {i : CallId} {value : Value}
    (hi : s.calls i = .returned value) :
    s.keys i = [] ∨ ∃ q ∈ s.log, q.name = s.keys i ∧ value = q.value := by
  by_cases hkey : s.keys i = []
  · exact Or.inl hkey
  · exact Or.inr ((traced_run hG hm hr).values i value (by rw [hi]; rfl) hkey)

/-! ## A group that keeps a table -/

/-- The calls in flight by their keys, and what the flights that are over returned. -/
def tableGroup : Group where
  State := Flights Bytes Value
  zero := .empty
  enter f key i := ((f.calls key).elim (f.lead key i) fun _ => f, f.calls key)
  done f key i value := f.finish key i value
  result f := f.results

theorem tableGroup_documented : tableGroup.Documented id := by
  constructor
  · rfl
  · intro g key i hk
    refine ⟨hk, ?_⟩
    change (Flights.calls g key).elim _ _ = _
    rw [show Flights.calls g key = none from hk]
    rfl
  · intro g key i j hk
    refine ⟨hk, ?_⟩
    change (Flights.calls g key).elim _ _ = _
    rw [show Flights.calls g key = some j from hk]
    rfl
  · intro g key i value hk
    rfl
  · intro g j
    rfl

instance {s : State G} {e : Event} : Decidable (Steady s e) := by
  cases e with
  | call i host =>
    exact inferInstanceAs (Decidable (normalizeHost (normalizeHost host) = normalizeHost host))
  | look | enter | reread | relook | answer | stamp | store | publish | wake | cleanup | advance =>
    exact isTrue trivial

instance {s : State G} {e : Event} : Decidable (NoEviction c s e) := by
  cases e with
  | store i victim => exact inferInstanceAs (Decidable (evicts c s.now s.entries (s.keys i) = false))
  | call | look | enter | reread | relook | answer | stamp | publish | wake | cleanup | advance =>
    exact isTrue trivial

/-- A second call comes while the first one's question is under way. -/
def asking : List Event :=
  [.call 0 [0x61], .look 0, .enter 0, .reread 0, .relook 0, .call 1 [0x61], .look 1, .enter 1]

def answering : List Event :=
  [.advance 3, .answer 0 (some [.v4 1]), .stamp 0, .store 0 [], .publish 0, .wake 1]

/-- The name is asked about again when the answer has expired. -/
def askingAgain : List Event :=
  [.advance 5, .call 2 [0x61], .look 2, .enter 2, .reread 2, .relook 2]

theorem asked_once_asking : ∃ s, run (step (newDNSCache 1 5 2)) (initial tableGroup)
    (asking ++ answering ++ askingAgain) = some s ∧
    s.log = [⟨[0x61], 0, 3, 3, some [.v4 1]⟩] ∧ sinceOf (s.calls 2) = some 8 ∧
    ∀ q ∈ s.log, q.name = s.keys 2 → q.expires (newDNSCache 1 5 2) ≤ 8 := by
  have hmeets : Meets (step (newDNSCache 1 5 2))
      (fun a e => Steady a e ∧ NoEviction (newDNSCache 1 5 2) a e) (initial tableGroup)
      (asking ++ answering ++ askingAgain) := by decide +kernel
  have hasked : (run (step (newDNSCache 1 5 2)) (initial tableGroup)
      (asking ++ answering ++ askingAgain)).map (fun s => (s.log, sinceOf (s.calls 2))) =
        some ([⟨[0x61], 0, 3, 3, some [.v4 1]⟩], some 8) := by decide +kernel
  obtain ⟨s, hr, hs⟩ := Option.map_eq_some_iff.mp hasked
  obtain ⟨hlog, hsince⟩ := Prod.mk.inj hs
  exact ⟨s, hr, hlog, hsince, (asked_once tableGroup_documented hmeets hr).2 2 8 hsince⟩

theorem lookup_answers_asking : ∃ s, run (step (newDNSCache 1 5 2)) (initial tableGroup)
    (asking ++ answering) = some s ∧ ∃ q ∈ s.log, q.name = s.keys 1 ∧ ([.v4 1], true) = q.value := by
  have hmeets : Meets (step (newDNSCache 1 5 2)) Steady (initial tableGroup)
      (asking ++ answering) := by decide +kernel
  have hcall : (run (step (newDNSCache 1 5 2)) (initial tableGroup) (asking ++ answering)).map
      (fun s => (s.calls 1, s.keys 1)) = some (.returned ([.v4 1], true), [0x61]) := by
    decide +kernel
  obtain ⟨s, hr, hs⟩ := Option.map_eq_some_iff.mp hcall
  obtain ⟨hreturned, hkey⟩ := Prod.mk.inj hs
  rcases lookup_answers tableGroup_documented hmeets hr hreturned with hblank | hq
  · rw [hkey] at hblank
    cases hblank
  · exact ⟨s, hr, hq⟩

/-! ## No lookup is stuck -/

/-- The call can be finished by steps that move no other. -/
def Finishes (c : Config) (s : State G) (i : CallId) : Prop :=
  ∃ fs t value, run (step c) s fs = some t ∧ t.calls i = .returned value ∧
    G.result t.group i = some value ∧ ∀ j, j ≠ i → t.calls j = s.calls j

section Progress

variable {t : State G} {e : Event} {i j : CallId}

theorem Finishes.step (h : step c s e = some t) (hothers : ∀ j, j ≠ i → t.calls j = s.calls j)
    (hf : Finishes c t i) : Finishes c s i := by
  obtain ⟨fs, u, value, hrun, hreturned, hresult, hsame⟩ := hf
  refine ⟨e :: fs, u, value, ?_, hreturned, hresult, fun j hj => ?_⟩
  · rw [run_cons, h]
    exact hrun
  · rw [hsame j hj, hothers j hj]

/-- The call can be finished. -/
def Returns (c : Config) (s : State G) (i : CallId) : Prop :=
  ∃ fs t value, run (step c) s fs = some t ∧ t.calls i = .returned value

theorem Finishes.returns (h : Finishes c s i) : Returns c s i := by
  obtain ⟨fs, t, value, hrun, hreturned, -⟩ := h
  exact ⟨fs, t, value, hrun, hreturned⟩

theorem Returns.step (h : step c s e = some t) (hr : Returns c t i) : Returns c s i := by
  obtain ⟨fs, u, value, hrun, hreturned⟩ := hr
  refine ⟨e :: fs, u, value, ?_, hreturned⟩
  rw [run_cons, h]
  exact hrun

end Progress

end SplitProxy.SharedLookups
