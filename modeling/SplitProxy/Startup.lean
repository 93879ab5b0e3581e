import SplitProxy.Runs
import SplitProxy.LoadRoutes

/-!
# The proxy's start

The two `init` functions that store into `routes`, in the order Go runs them
(`config.go` before `routing.go`), the reload goroutine of `main`, and the accept
loop. The cache in `routes` carries where it came from.
-/
namespace SplitProxy.Startup

open Runs GoText Routing

/-- Where a cache came from: the `init` of `routing.go`, or `loadRoutes` and what
it read from Redis. -/
inductive Origin where
  | bootstrap
  | loaded (stored : Stored)
  deriving DecidableEq, Repr

def Origin.cache (routeDirect : Route) : Origin → RouteCache
  | .bootstrap => Routing.bootstrap routeDirect
  | .loaded stored => loadRoutes routeDirect stored

/-- Where the process stands. -/
inductive Pc where
  | started
  /-- `init` of `config.go` is done -/
  | configured
  /-- `init` of `routing.go` is done, `main` begins -/
  | initialised
  | listening
  /-- the reload goroutine is running -/
  | reloading
  | authReady
  /-- `StartSync` is done, in the accept loop -/
  | accepting
  | exited
  deriving DecidableEq, Repr

structure State where
  pc : Pc
  /-- `routes`, an `atomic.Value` -/
  routes : Option Origin
  /-- the ticker of `main` is running -/
  ticking : Bool
  /-- `Accept` has returned a connection -/
  accepted : Bool
  deriving DecidableEq, Repr

def initial : State := ⟨.started, none, false, false⟩

/-- A load answers with what Redis held, or with an error. -/
inductive Event where
  | initConfig (redis : Option Stored) (tls : Bool)
  | initRouting
  | listen (ok : Bool)
  | startReload
  | newAuthStore (ok : Bool)
  | startSync
  | accept
  | tick (redis : Option Stored)
  deriving DecidableEq, Repr

/-- What `loadRoutes` leaves in `routes`. -/
def afterLoad (routes : Option Origin) : Option Stored → Option Origin
  | none => routes
  | some stored => some (.loaded stored)

/-- `direct` is `DEFAULT_GROUP_NAME`, without which both `init` functions exit. -/
def step (direct : Route) (s : State) : Event → Option State
  | .initConfig redis tls =>
    if s.pc = .started then
      if direct = [] then some { s with pc := .exited }
      else if redis.isSome ∧ tls then
        some { s with pc := .configured, routes := afterLoad s.routes redis }
      else some { s with pc := .exited, routes := afterLoad s.routes redis }
    else none
  | .initRouting =>
    if s.pc = .configured then
      if direct = [] then some { s with pc := .exited }
      else some { s with pc := .initialised, routes := some .bootstrap }
    else none
  | .listen ok =>
    if s.pc = .initialised then some { s with pc := if ok then .listening else .exited } else none
  | .startReload =>
    if s.pc = .listening then some { s with pc := .reloading, ticking := true } else none
  | .newAuthStore ok =>
    if s.pc = .reloading then
      some { s with pc := if ok then .authReady else .exited, ticking := ok && s.ticking }
    else none
  | .startSync => if s.pc = .authReady then some { s with pc := .accepting } else none
  | .accept => if s.pc = .accepting then some { s with accepted := true } else none
  | .tick redis =>
    if s.ticking then some { s with routes := afterLoad s.routes redis } else none

/-- The routing answer a connection gets now. -/
def answer (direct : Route) (dns : Answers) (s : State) (host : Bytes) : Route :=
  resolveRoute direct dns (s.routes.map (Origin.cache direct)) host

/-- From the first connection on, the cache in force was loaded from Redis. -/
def InForce (s : State) : Prop :=
  s.accepted = true → ∃ stored, s.routes = some (.loaded stored)

/-- No connection is accepted before a load by the reload goroutine has succeeded. -/
def Reloaded (direct : Route) (es : List Event) : Prop :=
  ∀ l m s, es = l ++ .accept :: m → run (step direct) initial l = some s → s.pc = .accepting →
    ∃ stored, .tick (some stored) ∈ l

/-- What that makes of the cache at the moment of `Accept`. -/
def AcceptsLoaded (s : State) : Event → Prop
  | .accept => s.pc = .accepting → s.routes ≠ some .bootstrap
  | _ => True

/-! ## The invariant -/

def Pc.inMain : Pc → Bool
  | .started => false
  | .configured => false
  | .exited => false
  | _ => true

def Pc.reloads : Pc → Bool
  | .reloading => true
  | .authReady => true
  | .accepting => true
  | _ => false

/-- In `main` there is a cache, and only the accept loop accepts. -/
structure Begun (s : State) : Prop where
  stored : s.pc.inMain = true → s.routes.isSome = true
  accepted : s.accepted = true → s.pc = .accepting
  ticking : s.ticking = true → s.pc.reloads = true

variable {direct : Route} {s t : State} {e : Event}

theorem begun_initial : Begun initial := ⟨nofun, nofun, nofun⟩

theorem afterLoad_isSome {routes : Option Origin} (redis : Option Stored)
    (h : routes.isSome = true) : (afterLoad routes redis).isSome = true := by
  cases redis with
  | none => exact h
  | some stored => rfl

theorem afterLoad_loaded {routes : Option Origin} (redis : Option Stored) {stored : Stored}
    (h : routes = some (.loaded stored)) : ∃ stored', afterLoad routes redis = some (.loaded stored') := by
  cases redis with
  | none => exact ⟨stored, h⟩
  | some stored' => exact ⟨stored', rfl⟩

/-- What a step does; where an `init` function fails, the process is gone. -/
inductive Move (direct : Route) (s : State) : Event → State → Prop where
  | configFails {redis : Option Stored} {tls : Bool} {routes : Option Origin}
    (hpc : s.pc = .started) :
    Move direct s (.initConfig redis tls) { s with pc := .exited, routes := routes }
  | initConfig {stored : Stored} (hpc : s.pc = .started) :
    Move direct s (.initConfig (some stored) true)
      { s with pc := .configured, routes := some (.loaded stored) }
  | routingFails (hpc : s.pc = .configured) :
    Move direct s .initRouting { s with pc := .exited }
  | initRouting (hpc : s.pc = .configured) :
    Move direct s .initRouting { s with pc := .initialised, routes := some .bootstrap }
  | listen {ok : Bool} (hpc : s.pc = .initialised) :
    Move direct s (.listen ok) { s with pc := if ok then .listening else .exited }
  | startReload (hpc : s.pc = .listening) :
    Move direct s .startReload { s with pc := .reloading, ticking := true }
  | newAuthStore {ok : Bool} (hpc : s.pc = .reloading) :
    Move direct s (.newAuthStore ok)
      { s with pc := if ok then .authReady else .exited, ticking := ok && s.ticking }
  | startSync (hpc : s.pc = .authReady) : Move direct s .startSync { s with pc := .accepting }
  | accept (hpc : s.pc = .accepting) : Move direct s .accept { s with accepted := true }
  | tick {redis : Option Stored} (hticking : s.ticking = true) :
    Move direct s (.tick redis) { s with routes := afterLoad s.routes redis }

theorem step_move (h : step direct s e = some t) : Move direct s e t := by
  cases e with
  | initConfig redis tls =>
    simp only [step] at h
    split at h
    · rename_i hpc
      split at h
      · cases h
        exact .configFails hpc
      · split at h
        · rename_i hok
          obtain ⟨stored, rfl⟩ := Option.isSome_iff_exists.mp hok.1
          obtain rfl := hok.2
          cases h
          exact .initConfig hpc
        · cases h
          exact .configFails hpc
    · cases h
  | initRouting =>
    simp only [step] at h
    split at h
    · rename_i hpc
      split at h <;> cases h
      · exact .routingFails hpc
      · exact .initRouting hpc
    · cases h
  | listen ok | startReload | newAuthStore ok | startSync | accept | tick redis =>
    simp only [step] at h
    split at h <;> cases h
    constructor
    assumption

theorem begun_step (hi : Begun s) (h : step direct s e = some t) : Begun t := by
  have hno : s.pc ≠ .accepting → s.accepted ≠ true := fun hp ha => hp (hi.accepted ha)
  have hidle : s.pc.reloads = false → s.ticking ≠ true := by
    intro hp ht
    have hm := hi.ticking ht
    rw [hp] at hm
    cases hm
  cases step_move h with
  | configFails hpc | initConfig hpc | routingFails hpc =>
    have ha := hno (by rw [hpc]; decide)
    have ht := hidle (by rw [hpc]; rfl)
    exact ⟨fun hm => (by cases hm), fun h' => absurd h' ha, fun h' => absurd h' ht⟩
  | initRouting hpc =>
    have ha := hno (by rw [hpc]; decide)
    have ht := hidle (by rw [hpc]; rfl)
    exact ⟨fun _ => rfl, fun h' => absurd h' ha, fun h' => absurd h' ht⟩
  | @listen ok hpc =>
    have ha := hno (by rw [hpc]; decide)
    have ht := hidle (by rw [hpc]; rfl)
    have hs := hi.stored (by rw [hpc]; rfl)
    exact ⟨fun _ => hs, fun h' => absurd h' ha, fun h' => absurd h' ht⟩
  | startReload hpc =>
    have ha := hno (by rw [hpc]; decide)
    have hs := hi.stored (by rw [hpc]; rfl)
    exact ⟨fun _ => hs, fun h' => absurd h' ha, fun _ => rfl⟩
  | @newAuthStore ok hpc =>
    have ha := hno (by rw [hpc]; decide)
    have hs := hi.stored (by rw [hpc]; rfl)
    refine ⟨fun _ => hs, fun h' => absurd h' ha, ?_⟩
    cases ok with
    | false => exact fun hm => by cases hm
    | true => exact fun _ => rfl
  | startSync hpc =>
    have hs := hi.stored (by rw [hpc]; rfl)
    exact ⟨fun _ => hs, fun _ => rfl, fun _ => rfl⟩
  | accept hpc => exact ⟨hi.stored, fun _ => hpc, hi.ticking⟩
  | @tick redis hticking =>
    exact ⟨fun hm => afterLoad_isSome redis (hi.stored hm), hi.accepted, hi.ticking⟩

/-- Only loads store after the first connection, so it is enough that one did before. -/
theorem inForce_step (hi : Begun s) (hP : InForce s) (hC : AcceptsLoaded s e)
    (h : step direct s e = some t) : InForce t := by
  have hno : s.pc ≠ .accepting → s.accepted ≠ true := fun hp ha => hp (hi.accepted ha)
  cases step_move h with
  | configFails hpc | initConfig hpc | routingFails hpc | initRouting hpc =>
    exact fun h' => absurd h' (hno (by rw [hpc]; decide))
  | listen | startReload | newAuthStore | startSync => exact hP
  | accept hpc =>
    intro _
    have hs := hi.stored (by rw [hpc]; rfl)
    obtain ⟨o, ho⟩ := Option.isSome_iff_exists.mp hs
    cases o with
    | bootstrap => exact absurd ho (hC hpc)
    | loaded stored => exact ⟨stored, ho⟩
  | @tick redis hticking =>
    intro ha
    obtain ⟨stored, hs⟩ := hP ha
    exact afterLoad_loaded redis hs

theorem in_force_iff_loaded (direct : Route) (es : List Event) :
    Always (step direct) InForce initial es ↔ Meets (step direct) AcceptsLoaded initial es := by
  refine always_iff_meets (fun _ _ _ hi hs => begun_step hi hs)
    (fun _ _ _ hi hP hC hs => inForce_step hi hP hC hs) ?_ begun_initial nofun
  intro s e _ _ hC
  cases e with
  | accept =>
    have hpc : s.pc = .accepting := by
      by_contra hn
      exact hC fun hp => absurd hp hn
    have hb : s.routes = some .bootstrap := by
      by_contra hn
      exact hC fun _ => hn
    refine ⟨{ s with accepted := true }, by rw [step, if_pos hpc], fun hP => ?_⟩
    obtain ⟨stored, hs⟩ := hP rfl
    rw [show ({ s with accepted := true } : State).routes = s.routes from rfl, hb] at hs
    cases hs
  | _ => exact absurd trivial hC

/-! ## The cache and the reloads before it -/

/-- In `main` the empty cache is in force until a load has succeeded. -/
def Unloaded (s : State) : Prop := s.pc.inMain = true → s.routes = some .bootstrap

theorem unloaded_step (hs : Unloaded s) (he : ∀ stored, e ≠ .tick (some stored))
    (h : step direct s e = some t) : Unloaded t := by
  cases step_move h with
  | configFails hpc | initConfig hpc | routingFails hpc => exact fun hmain => by cases hmain
  | initRouting hpc => exact fun _ => rfl
  | listen hpc | startReload hpc | newAuthStore hpc | startSync hpc | accept hpc =>
    exact fun _ => hs (by rw [hpc]; rfl)
  | @tick redis hticking =>
    cases redis with
    | none => exact hs
    | some stored => exact absurd rfl (he stored)

/-- The reload goroutine has stored a cache. -/
structure Loaded (s : State) : Prop where
  past : s.pc.reloads = true ∨ s.pc = .exited
  loaded : ∃ stored, s.routes = some (.loaded stored)

theorem loaded_tick {stored : Stored} (hi : Begun s)
    (h : step direct s (.tick (some stored)) = some t) : Loaded t := by
  cases step_move h with
  | tick hticking => exact ⟨Or.inl (hi.ticking hticking), stored, rfl⟩

/-- Both `init` functions are over by then. -/
theorem loaded_step (hs : Loaded s) (h : step direct s e = some t) : Loaded t := by
  have hpast : ∀ {pc : Pc}, s.pc = pc → pc.reloads = true ∨ pc = .exited := by
    rintro pc rfl
    exact hs.past
  cases step_move h with
  | configFails hpc | initConfig hpc | routingFails hpc | initRouting hpc | listen hpc
  | startReload hpc => exact absurd (hpast hpc) (by decide)
  | @newAuthStore ok hpc =>
    refine ⟨?_, hs.loaded⟩
    cases ok with
    | false => exact Or.inr rfl
    | true => exact Or.inl rfl
  | startSync hpc => exact ⟨Or.inl rfl, hs.loaded⟩
  | accept hpc => exact ⟨hs.past, hs.loaded⟩
  | @tick redis hticking =>
    obtain ⟨stored, hrouted⟩ := hs.loaded
    exact ⟨hs.past, afterLoad_loaded redis hrouted⟩

/-- In the accept loop the cache is still the empty one if and only if no load by the
reload goroutine has succeeded. -/
theorem bootstrap_iff {es : List Event} (hr : run (step direct) initial es = some s)
    (hpc : s.pc = .accepting) :
    s.routes = some .bootstrap ↔ ∀ stored, .tick (some stored) ∉ es := by
  constructor
  · intro hroutes stored hmem
    obtain ⟨l, m, rfl⟩ := List.append_of_mem hmem
    rw [run_append] at hr
    obtain ⟨u, hu, hrest⟩ := Option.bind_eq_some_iff.mp hr
    obtain ⟨v, htick, hrun⟩ := run_cons_some hrest
    have hbegun : Begun u := run_preserves (fun _ _ _ => begun_step) begun_initial hu
    have hloaded : Loaded s :=
      run_preserves (fun _ _ _ => loaded_step) (loaded_tick hbegun htick) hrun
    obtain ⟨stored', hrouted⟩ := hloaded.loaded
    rw [hroutes] at hrouted
    cases hrouted
  · intro hno
    have hkept : Unloaded s := run_invariant (C := fun _ e => ∀ stored, e ≠ .tick (some stored))
      (fun _ _ _ hi he hs => unloaded_step hi he hs) (fun hmain => by cases hmain)
      (meets_of_mem fun e he _ stored hx => hno stored (by rwa [← hx])) hr
    exact hkept (by rw [hpc]; rfl)

/-- The stored rules are in force from the first connection on in exactly the runs
whose first connection comes after a successful reload. -/
theorem in_force_iff_reloaded (direct : Route) (es : List Event) :
    Always (step direct) InForce initial es ↔ Reloaded direct es := by
  rw [in_force_iff_loaded, meets_iff_forall]
  constructor
  · intro hall l m s he hr hpc
    have hroutes := hall l .accept m s he hr hpc
    by_contra hno
    exact hroutes ((bootstrap_iff hr hpc).mpr fun stored hmem => hno ⟨stored, hmem⟩)
  · intro hreloaded l e m s he hr
    cases e with
    | accept =>
      intro hpc hroutes
      obtain ⟨stored, hmem⟩ := hreloaded l m s he hr hpc
      exact (bootstrap_iff hr hpc).mp hroutes stored hmem
    | _ => trivial

/-! ## A start without a reload in time -/

/-- `direct` -/
def directName : Route := [0x64, 0x69, 0x72, 0x65, 0x63, 0x74]

/-- All traffic goes to the group `eu`. -/
def euByDefault : Stored := ⟨[], [], some [0x65, 0x75]⟩

def firstSeconds : List Event :=
  [.initConfig (some euByDefault) true, .initRouting, .listen true, .startReload,
   .newAuthStore true, .startSync, .accept]

/-- The first connections are routed by the empty cache, though `loadRoutes` had
succeeded: they go out directly instead of to the group `eu`. -/
theorem routed_by_bootstrap :
    ∃ s, run (step directName) initial firstSeconds = some s ∧ ¬InForce s ∧
      answer directName (fun _ => none) s [0x61] = directName ∧
      resolveRoute directName (fun _ => none) (some (loadRoutes directName euByDefault)) [0x61] =
        [0x65, 0x75] := by
  refine ⟨⟨.accepting, some .bootstrap, true, true⟩, by decide, ?_, by decide +kernel,
    by decide +kernel⟩
  intro h
  obtain ⟨stored, hs⟩ := h rfl
  cases hs

end SplitProxy.Startup
