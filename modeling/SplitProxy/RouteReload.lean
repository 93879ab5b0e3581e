import SplitProxy.History
import SplitProxy.LoadOrder

/-!
# Reloading the routes while they are written

`loadRoutes` reads the default route, the domains and the CIDRs by three requests
to Redis, and the admin API writes them one command at a time. Any number of
commands may be executed between two of the reads. The process is taken up where its
`init` functions have returned: `config.go` has loaded once, and `routing.go` has stored
the bootstrap cache over that load. From there only the ticker of `main` loads, and its
loads do not overlap.
-/
namespace SplitProxy.RouteReload

open Runs GoText Routing SyncMap History

/-- A command that writes one of the three keys. -/
inductive Command where
  | hsetDomain (pattern value : Bytes)
  | hdelDomain (pattern : Bytes)
  | hsetCIDR (cidr value : Bytes)
  | hdelCIDR (cidr : Bytes)
  | setDefault (value : Bytes)
  deriving DecidableEq, Repr

def exec (x : Stored) : Command → Stored
  | .hsetDomain pattern value => { x with domains := store x.domains pattern value }
  | .hdelDomain pattern => { x with domains := delete x.domains pattern }
  | .hsetCIDR cidr value => { x with cidrs := store x.cidrs cidr value }
  | .hdelCIDR cidr => { x with cidrs := delete x.cidrs cidr }
  | .setDefault value => { x with defaultRoute := some value }

/-- What a load has read, the hashes in the order they are visited in, and the
moments it has read at. -/
structure Load where
  stored : Stored
  defaultAt : Nat
  domainsAt : Nat
  cidrsAt : Nat
  publishedAt : Nat
  deriving DecidableEq, Repr

inductive Loader where
  | idle
  | gotDefault (value : Option Bytes) (at₁ : Nat)
  | gotDomains (value : Option Bytes) (domains : List (Bytes × Bytes)) (at₁ at₂ : Nat)
  | gotCIDRs (stored : Stored) (at₁ at₂ at₃ : Nat)
  deriving DecidableEq, Repr

structure State where
  redis : History Stored
  loader : Loader
  routes : RouteCache
  /-- the loads that have stored into `routes`, the latest first -/
  loads : List Load

def initial (direct : Route) (x : Stored) : State := ⟨.start x, .idle, bootstrap direct, []⟩

/-- `fail` is a request to Redis that returns an error. -/
inductive Event where
  | command (c : Command)
  | getDefault
  | getDomains (entries : List (Bytes × Bytes))
  | getCIDRs (entries : List (Bytes × Bytes))
  | store
  | fail
  deriving DecidableEq, Repr

def step (direct : Route) (s : State) : Event → Option State
  | .command c => some { s with redis := s.redis.write (exec s.redis.now c) }
  | .getDefault =>
    match s.loader with
    | .idle => some { s with loader := .gotDefault s.redis.now.defaultRoute s.redis.moment }
    | _ => none
  | .getDomains entries =>
    match s.loader with
    | .gotDefault value at₁ =>
      if entries.Perm s.redis.now.domains then
        some { s with loader := .gotDomains value entries at₁ s.redis.moment }
      else none
    | _ => none
  | .getCIDRs entries =>
    match s.loader with
    | .gotDomains value domains at₁ at₂ =>
      if entries.Perm s.redis.now.cidrs then
        some { s with loader := .gotCIDRs ⟨domains, entries, value⟩ at₁ at₂ s.redis.moment }
      else none
    | _ => none
  | .store =>
    match s.loader with
    | .gotCIDRs stored at₁ at₂ at₃ => some
        { s with
          loader := .idle
          routes := loadRoutes direct stored
          loads := ⟨stored, at₁, at₂, at₃, s.redis.moment⟩ :: s.loads }
    | _ => none
  | .fail =>
    match s.loader with
    | .idle | .gotCIDRs _ _ _ _ => none
    | _ => some { s with loader := .idle }

/-! ## Requests as commands -/

/-- What Redis holds of the admin API's data. -/
def redis (s : Admin.Store) : Stored := ⟨s.domains, s.cidrs, s.defaultRoute⟩

def commands : Admin.Change → List Command
  | .none | .addGroup _ | .renameGroup _ _ | .dropGroup _ => []
  | .setDomains patterns g => patterns.map (.hsetDomain · (Admin.routeName g))
  | .dropDomain pattern => [.hdelDomain pattern]
  | .setCIDRs cidrs g => cidrs.map (.hsetCIDR · (Admin.routeName g))
  | .dropCIDR cidr => [.hdelCIDR cidr]
  | .setDefault name => [.setDefault name]

/-- A request of the admin API is its commands one after the other. -/
theorem redis_apply (s : Admin.Store) (c : Admin.Change) :
    redis (Admin.apply s c) = (commands c).foldl exec (redis s) := by
  cases c with
  | setDomains patterns g =>
    have hall : ∀ (patterns : List Bytes) (x : Stored),
        (patterns.map (Command.hsetDomain · (Admin.routeName g))).foldl exec x =
          { x with domains := Admin.hsetAll x.domains patterns (Admin.routeName g) } := by
      intro patterns
      induction patterns with
      | nil => exact fun _ => rfl
      | cons p ps ih =>
        intro x
        rw [List.map_cons, List.foldl_cons, ih]
        rfl
    exact (hall patterns (redis s)).symm
  | setCIDRs cidrs g =>
    have hall : ∀ (cidrs : List Bytes) (x : Stored),
        (cidrs.map (Command.hsetCIDR · (Admin.routeName g))).foldl exec x =
          { x with cidrs := Admin.hsetAll x.cidrs cidrs (Admin.routeName g) } := by
      intro cidrs
      induction cidrs with
      | nil => exact fun _ => rfl
      | cons c cs ih =>
        intro x
        rw [List.map_cons, List.foldl_cons, ih]
        rfl
    exact (hall cidrs (redis s)).symm
  | none | addGroup | renameGroup | dropGroup | dropDomain | dropCIDR | setDefault => rfl

/-! ## What a load has read -/

variable {direct : Route} {s t : State} {h : History Stored} {l : Load} {e : Event}

/-- The parts of a load are those of Redis at its moments. -/
structure Taken (h : History Stored) (l : Load) : Prop where
  default : h.Held l.defaultAt fun x => l.stored.defaultRoute = x.defaultRoute
  domains : h.Held l.domainsAt fun x => l.stored.domains.Perm x.domains
  cidrs : h.Held l.cidrsAt fun x => l.stored.cidrs.Perm x.cidrs
  ordered : l.defaultAt ≤ l.domainsAt ∧ l.domainsAt ≤ l.cidrsAt ∧ l.cidrsAt ≤ l.publishedAt
  published : l.publishedAt ≤ h.moment

theorem Taken.write (ht : Taken h l) (x : Stored) : Taken (h.write x) l := by
  refine ⟨ht.default.write x, ht.domains.write x, ht.cidrs.write x, ht.ordered, ?_⟩
  rw [moment_write]
  exact Nat.le_succ_of_le ht.published

/-- The load under way, up to where it is; it began after moment `since`. -/
def Reading (h : History Stored) (since : Nat) : Loader → Prop
  | .idle => since ≤ h.moment
  | .gotDefault value at₁ => since ≤ at₁ ∧ h.Held at₁ fun x => value = x.defaultRoute
  | .gotDomains value domains at₁ at₂ =>
    since ≤ at₁ ∧ at₁ ≤ at₂ ∧ (h.Held at₁ fun x => value = x.defaultRoute) ∧
      h.Held at₂ fun x => domains.Perm x.domains
  | .gotCIDRs stored at₁ at₂ at₃ => since ≤ at₁ ∧ Taken h ⟨stored, at₁, at₂, at₃, h.moment⟩

theorem Reading.since_le {since : Nat} {loader : Loader} (hr : Reading h since loader) :
    since ≤ h.moment := by
  cases loader with
  | idle => exact hr
  | gotDefault value at₁ => exact hr.1.trans hr.2.le
  | gotDomains value domains at₁ at₂ => exact hr.1.trans (hr.2.1.trans hr.2.2.2.le)
  | gotCIDRs stored at₁ at₂ at₃ => exact hr.1.trans hr.2.default.le

theorem Reading.write {since : Nat} {loader : Loader} (hr : Reading h since loader) (x : Stored) :
    Reading (h.write x) since loader := by
  cases loader with
  | idle =>
    have hle : since ≤ h.moment := hr
    change since ≤ (h.write x).moment
    rw [moment_write]
    exact Nat.le_succ_of_le hle
  | gotDefault value at₁ => exact ⟨hr.1, hr.2.write x⟩
  | gotDomains value domains at₁ at₂ =>
    exact ⟨hr.1, hr.2.1, hr.2.2.1.write x, hr.2.2.2.write x⟩
  | gotCIDRs stored at₁ at₂ at₃ =>
    obtain ⟨hsince, htaken⟩ := hr
    obtain ⟨h₁, h₂, h₃⟩ := htaken.ordered
    refine ⟨hsince, htaken.default.write x, htaken.domains.write x, htaken.cidrs.write x,
      ⟨h₁, h₂, ?_⟩, Nat.le_refl _⟩
    exact (htaken.cidrs.write x).le

/-- The moment of the latest load. -/
def lastPublished (loads : List Load) : Nat := (loads.head?.map Load.publishedAt).getD 0

structure Inv (direct : Route) (s : State) : Prop where
  taken : ∀ l ∈ s.loads, Taken s.redis l
  sequential : s.loads.Pairwise fun later earlier => earlier.publishedAt ≤ later.defaultAt
  reading : Reading s.redis (lastPublished s.loads) s.loader
  routes : ∀ l, s.loads.head? = some l → s.routes = loadRoutes direct l.stored
  unloaded : s.loads = [] → s.routes = bootstrap direct

theorem inv_initial (direct : Route) (x : Stored) : Inv direct (initial direct x) :=
  ⟨fun l hl => absurd hl List.not_mem_nil, .nil, Nat.le_refl _, fun l hl => (by cases hl),
    fun _ => rfl⟩

theorem inv_step (hi : Inv direct s) (hs : step direct s e = some t) : Inv direct t := by
  have htaken := hi.taken
  have hseq := hi.sequential
  have hreading := hi.reading
  have hroutes := hi.routes
  have hunloaded := hi.unloaded
  cases e with
  | command c =>
    cases hs
    exact ⟨fun l hl => (htaken l hl).write _, hseq, hreading.write _, hroutes, hunloaded⟩
  | getDefault =>
    simp only [step] at hs
    split at hs
    · cases hs
      exact ⟨htaken, hseq, ⟨hreading.since_le, held_now rfl⟩, hroutes, hunloaded⟩
    · cases hs
  | getDomains entries =>
    simp only [step] at hs
    split at hs
    · rename_i value at₁ hloader
      split at hs
      · rename_i hperm
        cases hs
        rw [hloader] at hreading
        exact ⟨htaken, hseq, ⟨hreading.1, hreading.2.le, hreading.2, held_now hperm⟩, hroutes,
          hunloaded⟩
      · cases hs
    · cases hs
  | getCIDRs entries =>
    simp only [step] at hs
    split at hs
    · rename_i value domains at₁ at₂ hloader
      split at hs
      · rename_i hperm
        cases hs
        rw [hloader] at hreading
        obtain ⟨hsince, hle, hdefault, hdomains⟩ := hreading
        refine ⟨htaken, hseq, ⟨hsince, hdefault, hdomains, held_now hperm, ?_, Nat.le_refl _⟩,
          hroutes, hunloaded⟩
        exact ⟨hle, hdomains.le, Nat.le_refl _⟩
      · cases hs
    · cases hs
  | store =>
    simp only [step] at hs
    split at hs
    · rename_i stored at₁ at₂ at₃ hloader
      cases hs
      rw [hloader] at hreading
      obtain ⟨hsince, hnew⟩ := hreading
      refine ⟨fun l hl => ?_, List.pairwise_cons.mpr ⟨fun l hl => ?_, hseq⟩, Nat.le_refl _, ?_,
        fun hl => absurd hl (List.cons_ne_nil _ _)⟩
      · rcases List.mem_cons.mp hl with rfl | hl
        · exact hnew
        · exact htaken l hl
      · refine Nat.le_trans ?_ hsince
        cases hloads : s.loads with
        | nil =>
          rw [hloads] at hl
          cases hl
        | cons l' rest =>
          rw [hloads] at hl hseq
          have hord : ∀ x ∈ rest, x.publishedAt ≤ l'.publishedAt := by
            intro x hx
            have hlate := (List.pairwise_cons.mp hseq).1 x hx
            obtain ⟨h₁, h₂, h₃⟩ := (htaken l' (by rw [hloads]; exact List.mem_cons_self)).ordered
            omega
          rcases List.mem_cons.mp hl with rfl | hl
          · exact Nat.le_refl _
          · exact hord l hl
      · intro l hl
        cases hl
        rfl
    · cases hs
  | fail =>
    simp only [step] at hs
    split at hs
    · cases hs
    · cases hs
    · cases hs
      exact ⟨htaken, hseq, hreading.since_le, hroutes, hunloaded⟩

theorem inv_run {x : Stored} {es : List Event} (hr : run (step direct) (initial direct x) es = some s) :
    Inv direct s :=
  run_preserves (fun _ _ _ => inv_step) (inv_initial direct x) hr

/-! ## What the proxy answers -/

/-- Which rule decides depends on what is stored, not on the order of the visits. -/
theorem decided_of_perm {x y : Stored} (hdomains : x.domains.Perm y.domains)
    (hcidrs : x.cidrs.Perm y.cidrs) (hdefault : x.defaultRoute = y.defaultRoute) {dns : Answers}
    {name : Bytes} {answer : Route} (h : Decided direct x dns name answer) :
    Decided direct y dns name answer := by
  have hd : ∀ route, DomainRouted x name route ↔ DomainRouted y name route := by
    intro route
    unfold DomainRouted
    simp only [hdomains.mem_iff]
  have hc : ∀ route, CIDRRouted x dns name route ↔ CIDRRouted y dns name route := by
    intro route
    unfold CIDRRouted
    simp only [hcidrs.mem_iff]
  unfold Decided at h ⊢
  simpa only [hd, hc, hdefault] using h

/-- A name that the stored domains name and nothing else is stored about. -/
theorem answer_of_domain {host route answer : Bytes} {x : Stored} {dns : Answers}
    (hd : Decided direct x dns host answer) (hrule : DomainRouted x host route)
    (hall : ∀ r, DomainRouted x host r → r = route) (hl : [] ∉ labels host) : answer = route := by
  rcases hd with hrouted | ⟨hnone, -⟩
  · exact hall answer hrouted
  · exact absurd hrule (hnone hl route)

/-- A name no rule is about goes the default way. -/
theorem answer_of_default {host answer : Bytes} {value : Option Bytes} {dns : Answers}
    (hd : Decided direct ⟨[], [], value⟩ dns host answer) : answer = loadDefault direct value := by
  have hdomain : ∀ r, ¬DomainRouted ⟨[], [], value⟩ host r := by
    rintro r ⟨e, he, -⟩
    cases he
  have hcidr : ∀ r, ¬CIDRRouted ⟨[], [], value⟩ dns host r := by
    rintro r ⟨e, he, -⟩
    cases he
  rcases hd with hrouted | ⟨-, hrouted | ⟨-, hdefault⟩⟩
  · exact absurd hrouted (hdomain answer)
  · exact absurd hrouted (hcidr answer)
  · exact hdefault

/-- The bootstrap cache sends everything direct. -/
theorem resolveRoute_bootstrap (direct : Route) (dns : Answers) (host : Bytes) :
    resolveRoute direct dns (some (bootstrap direct)) host = direct := by
  by_cases hhost : spelledHost host = []
  · exact if_pos hhost
  · have hnone : loadDefault direct none = direct := rfl
    have hempty : bootstrap direct = loadRoutes direct ⟨[], [], none⟩ := rfl
    rw [hempty, answer_of_default (resolveRoute_decided direct ⟨[], [], none⟩ dns hhost), hnone]

/-- Until the first load is stored every host goes direct. From then on what answers every
host comes from one load: the default from Redis as it was at a moment of that load, the
domain rules from a later and the CIDR rules from a still later one; and no load reads
before the one before it was stored. -/
theorem reload_answers (direct : Route) (x : Stored) (es : List Event) (s : State)
    (hr : run (step direct) (initial direct x) es = some s) :
    (s.loads = [] → ∀ (dns : Answers) (host : Bytes),
      resolveRoute direct dns (some s.routes) host = direct) ∧
    ∀ l rest, s.loads = l :: rest →
      ∃ v₁ v₂ v₃, s.redis.seen l.defaultAt = some v₁ ∧ s.redis.seen l.domainsAt = some v₂ ∧
        s.redis.seen l.cidrsAt = some v₃ ∧
        (l.defaultAt ≤ l.domainsAt ∧ l.domainsAt ≤ l.cidrsAt ∧ l.cidrsAt ≤ l.publishedAt) ∧
        (∀ l' ∈ rest, l'.publishedAt ≤ l.defaultAt) ∧
        ∀ (dns : Answers) (host : Bytes), spelledHost host ≠ [] →
          Decided direct ⟨v₂.domains, v₃.cidrs, v₁.defaultRoute⟩ dns
            (trimSuffix (spelledHost host) [dot]) (resolveRoute direct dns (some s.routes) host) := by
  have hi := inv_run hr
  refine ⟨fun hnone dns host => ?_, fun l rest hl => ?_⟩
  · rw [hi.unloaded hnone]
    exact resolveRoute_bootstrap direct dns host
  have htaken := hi.taken l (by rw [hl]; exact List.mem_cons_self)
  obtain ⟨v₁, hv₁, hdefault⟩ := htaken.default
  obtain ⟨v₂, hv₂, hdomains⟩ := htaken.domains
  obtain ⟨v₃, hv₃, hcidrs⟩ := htaken.cidrs
  have hseq := hi.sequential
  rw [hl] at hseq
  refine ⟨v₁, v₂, v₃, hv₁, hv₂, hv₃, htaken.ordered, (List.pairwise_cons.mp hseq).1, ?_⟩
  intro dns host hhost
  rw [hi.routes l (by rw [hl]; rfl)]
  refine decided_of_perm ?_ ?_ ?_ (resolveRoute_decided direct l.stored dns hhost)
  · exact hdomains
  · exact hcidrs
  · exact hdefault

/-- The default is set and a rule written while the first load is under way. -/
def firstLoad : List Event :=
  [.getDefault, .command (.setDefault [0x65, 0x75]),
    .command (.hsetDomain [0x61, 0x2E, 0x62] [0x75, 0x73]),
    .getDomains [([0x61, 0x2E, 0x62], [0x75, 0x73])], .getCIDRs []]

theorem reload_answers_example :
    (∃ s, run (step [0x64]) (initial [0x64] ⟨[], [], none⟩) firstLoad = some s ∧
      resolveRoute [0x64] (fun _ => none) (some s.routes) [0x61, 0x2E, 0x62] = [0x64]) ∧
    ∃ s l, run (step [0x64]) (initial [0x64] ⟨[], [], none⟩) (firstLoad ++ [.store]) = some s ∧
      s.loads = [l] ∧ l.defaultAt = 0 ∧ l.domainsAt = 2 ∧
      ∃ v₁ v₂, s.redis.seen l.defaultAt = some v₁ ∧ v₁.defaultRoute = none ∧
        s.redis.seen l.domainsAt = some v₂ ∧ v₂.defaultRoute = some [0x65, 0x75] ∧
        v₂.domains = [([0x61, 0x2E, 0x62], [0x75, 0x73])] := by
  constructor
  · refine ⟨_, rfl, ?_⟩
    exact (reload_answers [0x64] ⟨[], [], none⟩ firstLoad _ rfl).1 rfl _ _
  · refine ⟨_, _, rfl, rfl, rfl, rfl, ?_⟩
    obtain ⟨v₁, v₂, v₃, h₁, h₂, -⟩ :=
      (reload_answers [0x64] ⟨[], [], none⟩ (firstLoad ++ [.store]) _ rfl).2 _ _ rfl
    cases h₁
    cases h₂
    exact ⟨_, _, rfl, rfl, rfl, rfl, rfl⟩

/-- Nothing is written. -/
def Quiet (e : Event) : Prop := ∀ c, e ≠ .command c

theorem redis_quiet (hq : Quiet e) (hs : step direct s e = some t) : t.redis = s.redis := by
  cases e with
  | command c => exact absurd rfl (hq c)
  | getDefault | getDomains | getCIDRs | store | fail =>
    simp only [step] at hs
    repeat' split at hs
    all_goals cases hs
    all_goals rfl

/-- A step stores one load at most, and stamps it with the moment it is taken at. -/
theorem loads_step (hs : step direct s e = some t) :
    t.loads = s.loads ∨ ∃ l, t.loads = l :: s.loads ∧ l.publishedAt = s.redis.moment := by
  cases e with
  | store =>
    simp only [step] at hs
    split at hs
    · cases hs
      exact Or.inr ⟨_, rfl, rfl⟩
    · cases hs
  | command =>
    cases hs
    exact Or.inl rfl
  | getDefault | getDomains | getCIDRs | fail =>
    simp only [step] at hs
    repeat' split at hs
    all_goals cases hs
    all_goals exact Or.inl rfl

/-- The loads stored while nothing is written. -/
theorem loads_quiet {fs : List Event} (hq : ∀ e ∈ fs, Quiet e) (hr : run (step direct) s fs = some t) :
    t.redis = s.redis ∧ ∃ new, t.loads = new ++ s.loads ∧ ∀ l ∈ new, l.publishedAt = s.redis.moment := by
  induction fs generalizing s with
  | nil =>
    cases hr
    exact ⟨rfl, [], rfl, fun l hl => absurd hl List.not_mem_nil⟩
  | cons e fs ih =>
    obtain ⟨m, hs, hrest⟩ := run_cons_some hr
    have hredis := redis_quiet (hq e List.mem_cons_self) hs
    obtain ⟨hm, new, hnew, hpub⟩ := ih (fun f hf => hq f (List.mem_cons_of_mem e hf)) hrest
    refine ⟨hm.trans hredis, ?_⟩
    rw [hredis] at hpub
    rcases loads_step hs with heq | ⟨l, heq, hl⟩
    · exact ⟨new, by rw [hnew, heq], hpub⟩
    · refine ⟨new ++ [l], by rw [hnew, heq, List.append_assoc, List.singleton_append], ?_⟩
      intro l' hl'
      rcases List.mem_append.mp hl' with hl' | hl'
      · exact hpub l' hl'
      · rw [List.mem_singleton.mp hl', hl]

/-- When the writing stops, the second load that is stored from then on has read
exactly what Redis holds. -/
theorem reload_settles (direct : Route) (x : Stored) (es fs : List Event) (s t : State)
    (hs : run (step direct) (initial direct x) es = some s) (hq : ∀ e ∈ fs, Quiet e)
    (ht : run (step direct) s fs = some t) (htwo : s.loads.length + 2 ≤ t.loads.length) :
    t.redis.now = s.redis.now ∧
      ∃ y, SameRules y t.redis.now ∧ t.routes = loadRoutes direct y := by
  have hi := inv_run (run_join hs ht)
  obtain ⟨hredis, new, hnew, hpub⟩ := loads_quiet hq ht
  refine ⟨by rw [hredis], ?_⟩
  have hlen : 2 ≤ new.length := by
    rw [hnew, List.length_append] at htwo
    omega
  rcases new with _ | ⟨l, _ | ⟨l', rest⟩⟩
  · simp at hlen
  · simp at hlen
  · have hl : l ∈ t.loads := by
      rw [hnew]
      exact List.mem_cons_self
    have hl' : l' ∈ (l' :: rest ++ s.loads) := List.mem_cons_self
    have htaken := hi.taken l hl
    have hseq := hi.sequential
    rw [hnew] at hseq
    have hstart := (List.pairwise_cons.mp hseq).1 l' hl'
    rw [hpub l' (List.mem_cons_of_mem l List.mem_cons_self), ← hredis] at hstart
    have hend := htaken.published
    obtain ⟨h₁, h₂, h₃⟩ := htaken.ordered
    have hdefault : l.defaultAt = t.redis.moment := by omega
    have hdomains : l.domainsAt = t.redis.moment := by omega
    have hcidrs : l.cidrsAt = t.redis.moment := by omega
    have hpart₁ := htaken.default
    have hpart₂ := htaken.domains
    have hpart₃ := htaken.cidrs
    rw [hdefault] at hpart₁
    rw [hdomains] at hpart₂
    rw [hcidrs] at hpart₃
    refine ⟨l.stored, ⟨hpart₂.now, hpart₃.now, hpart₁.now⟩, hi.routes l ?_⟩
    rw [hnew]
    rfl

/-- A load is under way while all three keys are written. -/
def lateWrites : List Event :=
  [.getDefault, .command (.hsetDomain [0x61] [0x65, 0x75]), .command (.setDefault [0x75, 0x73]),
    .getDomains [([0x61], [0x65, 0x75])], .command (.hsetCIDR [0x3A, 0x3A, 0x2F, 0x30] [0x65, 0x75])]

/-- That load is stored, and the next. -/
def twoLoads : List Event :=
  [.getCIDRs [([0x3A, 0x3A, 0x2F, 0x30], [0x65, 0x75])], .store, .getDefault,
    .getDomains [([0x61], [0x65, 0x75])], .getCIDRs [([0x3A, 0x3A, 0x2F, 0x30], [0x65, 0x75])],
    .store]

theorem reload_settles_twoLoads : ∃ s t,
    run (step [0x64]) (initial [0x64] ⟨[], [], none⟩) lateWrites = some s ∧
      run (step [0x64]) s twoLoads = some t ∧
      t.redis.now = ⟨[([0x61], [0x65, 0x75])], [([0x3A, 0x3A, 0x2F, 0x30], [0x65, 0x75])],
        some [0x75, 0x73]⟩ ∧
      ∃ y, SameRules y t.redis.now ∧ t.routes = loadRoutes [0x64] y := by
  refine ⟨_, _, rfl, rfl, rfl, ?_⟩
  have hquiet : ∀ e ∈ twoLoads, Quiet e := by
    intro e he c hc
    subst hc
    simp [twoLoads] at he
  exact (reload_settles [0x64] ⟨[], [], none⟩ lateWrites twoLoads _ _ rfl hquiet rfl
    (Nat.le_refl _)).2

/-- While the routes are loaded, a default route takes the place of the rule for a
host. -/
def replacedRule (host route : Bytes) : List Event :=
  [.getDefault, .command (.setDefault route), .command (.hdelDomain host), .getDomains [],
    .getCIDRs [], .store]

/-- What Redis holds before, between and after the two commands. -/
def replacedVersions (host route : Bytes) : History Stored :=
  ⟨[⟨[(host, route)], [], none⟩, ⟨[(host, route)], [], some route⟩], ⟨[], [], some route⟩⟩

theorem run_replacedRule (direct host route : Bytes) :
    run (step direct) (initial direct ⟨[(host, route)], [], none⟩) (replacedRule host route) =
      some ⟨replacedVersions host route, .idle, loadRoutes direct ⟨[], [], none⟩,
        [⟨⟨[], [], none⟩, 0, 2, 2, 2⟩]⟩ := by
  have hdelete : delete [(host, route)] host = [] := by simp [delete]
  simp [replacedRule, run_cons, step, initial, exec, History.start, History.write, History.moment,
    hdelete, replacedVersions]

section HostRule

variable {host route : Bytes} {dns : Answers}

theorem hostName_ne_nil (hh : HostName host) : host ≠ [] := by
  rintro rfl
  exact hh.labels (by simp [labels])

/-- A lower-case name is already in normal form. -/
theorem normal_hostName (hh : HostName host) : trimSpace host = host ∧ toLower host = host := by
  constructor
  · have hnone : Blank [] := ⟨[], by simp, rfl⟩
    have h := trimSpace_ascii hnone hnone (hostName_ne_nil hh) fun b hb =>
      ⟨(hh.bytes b hb).1.1, (hh.bytes b hb).1.2.1⟩
    rw [List.nil_append, List.append_nil] at h
    exact h
  · rw [toLower_ascii fun b hb => (hh.bytes b hb).1.1]
    exact (List.map_congr_left fun b hb => (hh.bytes b hb).2).trans (List.map_id host)

theorem domainRule_host (hh : HostName host) (hroute : trimSpace route = route) (hrne : route ≠ []) :
    domainRule (host, route) = some (host, route) := by
  obtain ⟨htrim, hlower⟩ := normal_hostName hh
  simp only [domainRule, htrim, hlower, hroute, hostName_ne_nil hh, hrne, or_self, ↓reduceIte]

theorem spelledHost_hostName (hh : HostName host) : spelledHost host = host ∧
    trimSuffix host [dot] = host := by
  obtain ⟨htrim, hlower⟩ := normal_hostName hh
  have hcolon : colon ∉ host := fun hc => (hh.bytes colon hc).1.2.2.1 rfl
  have hdot : trimSuffix host [dot] = host := trimSuffix_of_not (getLast_of_labels hh.labels)
  exact ⟨by rw [spelledHost, htrim, hlower, withoutPort_no_colon hcolon, hdot], hdot⟩

/-- Every state of Redis sends the host to the group, by its rule or by default,
and yet it goes direct until the next load. -/
theorem replaced_rule_torn (direct host route : Bytes) (dns : Answers) (hh : HostName host)
    (hplain : wildcardMark.isPrefixOf host = false) (hroute : trimSpace route = route)
    (hrne : route ≠ []) :
    ∃ s, run (step direct) (initial direct ⟨[(host, route)], [], none⟩) (replacedRule host route) =
        some s ∧
      (∀ m v, s.redis.seen m = some v → ∀ y, SameRules y v →
        resolveRoute direct dns (some (loadRoutes direct y)) host = route) ∧
      resolveRoute direct dns (some s.routes) host = direct := by
  obtain ⟨hspelled, htrim⟩ := spelledHost_hostName hh
  have hne : spelledHost host ≠ [] := by
    rw [hspelled]
    exact hostName_ne_nil hh
  have hdecided : ∀ y, Decided direct y dns host
      (resolveRoute direct dns (some (loadRoutes direct y)) host) := by
    intro y
    have h := resolveRoute_decided direct y dns hne
    rw [hspelled, htrim] at h
    exact h
  have hrule := domainRule_host hh hroute hrne
  have hdomain : ∀ value, DomainRouted ⟨[(host, route)], [], value⟩ host route := by
    intro value
    exact ⟨(host, route), List.mem_singleton_self _, host, hrule, Or.inl ⟨rfl, hplain⟩⟩
  have honly : ∀ value r, DomainRouted ⟨[(host, route)], [], value⟩ host r → r = route := by
    rintro value r ⟨e, he, pattern, hp, -⟩
    rw [List.mem_singleton.mp he, hrule] at hp
    cases hp
    rfl
  have hversion : ∀ v ∈ (replacedVersions host route).past ++ [(replacedVersions host route).now],
      ∀ y, SameRules y v → resolveRoute direct dns (some (loadRoutes direct y)) host = route := by
    intro v hv y hy
    have hd := decided_of_perm hy.domains hy.cidrs hy.defaultRoute (hdecided y)
    simp only [replacedVersions, List.cons_append, List.nil_append, List.mem_cons,
      List.not_mem_nil, or_false] at hv
    rcases hv with rfl | rfl | rfl
    · exact answer_of_domain hd (hdomain _) (honly _) hh.labels
    · exact answer_of_domain hd (hdomain _) (honly _) hh.labels
    · rw [answer_of_default hd, loadDefault, Option.getD_some, hroute, if_neg hrne]
  refine ⟨_, run_replacedRule direct host route, fun m v hv => ?_, ?_⟩
  · exact hversion v (List.mem_of_getElem? hv)
  · rw [answer_of_default (hdecided ⟨[], [], none⟩)]
    rfl

theorem replaced_rule_torn_example : ∃ s,
    run (step [0x64]) (initial [0x64] ⟨[([0x61, 0x2E, 0x62], [0x65, 0x75])], [], none⟩)
      (replacedRule [0x61, 0x2E, 0x62] [0x65, 0x75]) = some s ∧
      resolveRoute [0x64] (fun _ => none) (some s.routes) [0x61, 0x2E, 0x62] = [0x64] := by
  obtain ⟨s, hs, -, hdirect⟩ := replaced_rule_torn [0x64] [0x61, 0x2E, 0x62] [0x65, 0x75] (fun _ => none)
    ⟨by decide +kernel, by decide +kernel⟩ (by decide +kernel) (by decide +kernel) (by simp)
  exact ⟨s, hs, hdirect⟩

end HostRule

end SplitProxy.RouteReload
