import SplitProxy.NetIPString
import SplitProxy.Routing

/-!
# Loading the routes

`loadRoutes` from what Redis holds to the cache `ResolveRoute` reads. Go visits a
map in any order, so a stored hash is the list of its entries in the order one
execution visits them.
-/
namespace SplitProxy.Routing

open GoText NetIP

def slash : UInt8 := 0x2F

/-- `netip.ParsePrefix`. -/
def parsePrefix (s : Bytes) : Option Prefix :=
  match splitLast slash s with
  | none => none
  | some (addr, bitsStr) =>
    match parseAddr addr with
    | none => none
    | some ip =>
      if ip.withoutZone ≠ ip then none
      else if 1 < bitsStr.length ∧
          ¬(bitsStr.head?.any fun c => 0x31 ≤ c.toNat ∧ c.toNat ≤ 0x39) then none
      else
        match atoi bitsStr with
        | none => none
        | some bits => if bits < 0 ∨ (ip.bitLen : Int) < bits then none else some (prefixFrom ip bits)

/-- The two hashes, each in the order of a visit, and the default-route key. -/
structure Stored where
  domains : List (Bytes × Bytes)
  cidrs : List (Bytes × Bytes)
  defaultRoute : Option Bytes
  deriving DecidableEq, Repr

/-- One turn of the loop over the domains. -/
def loadDomain (acc : (Bytes → Option Route) × DomainTrie) (entry : Bytes × Bytes) :
    (Bytes → Option Route) × DomainTrie :=
  let pattern := toLower (trimSpace entry.1)
  if pattern = [] then acc
  else
    let route := trimSpace entry.2
    if route = [] then acc
    else if wildcardMark.isPrefixOf pattern then (acc.1, insertWildcard acc.2 pattern route)
    else (Function.update acc.1 pattern (some route), acc.2)

/-- One turn of the loop over the CIDRs. -/
def loadCIDR (t : CIDRTrie) (entry : Bytes × Bytes) : CIDRTrie :=
  let cidr := trimSpace entry.1
  if cidr = [] then t
  else
    let route := trimSpace entry.2
    if route = [] then t
    else
      match parsePrefix cidr with
      | none => t
      | some p => t.insert (normalizePrefix p) route

def loadDefault (routeDirect : Route) (stored : Option Bytes) : Route :=
  let redisDefault := trimSpace (stored.getD [])
  if redisDefault = [] then routeDirect else redisDefault

/-- `loadRoutes` when Redis answers. -/
def loadRoutes (routeDirect : Route) (stored : Stored) : RouteCache :=
  let domains := stored.domains.foldl loadDomain (fun _ => none, newDomainTrie)
  { domains := domains.1
    wildcardDomains := domains.2
    cidrs := stored.cidrs.foldl loadCIDR .empty
    defaultRoute := loadDefault routeDirect stored.defaultRoute }

/-- The cache the proxy starts with. -/
def bootstrap (routeDirect : Route) : RouteCache :=
  ⟨fun _ => none, newDomainTrie, .empty, routeDirect⟩

/-! ## Stored entries as rules -/

/-- The pattern and route of a stored domain entry, if it is loaded. -/
def domainRule (entry : Bytes × Bytes) : Option (Bytes × Route) :=
  let pattern := toLower (trimSpace entry.1)
  let route := trimSpace entry.2
  if pattern = [] ∨ route = [] then none else some (pattern, route)

/-- The prefix and route of a stored CIDR entry, if it is loaded. -/
def cidrRule (entry : Bytes × Bytes) : Option (Prefix × Route) :=
  let cidr := trimSpace entry.1
  let route := trimSpace entry.2
  if cidr = [] ∨ route = [] then none else (parsePrefix cidr).map (·, route)

theorem loadDomain_eq (acc : (Bytes → Option Route) × DomainTrie) (entry : Bytes × Bytes) :
    loadDomain acc entry =
      match domainRule entry with
      | none => acc
      | some (pattern, route) =>
        if wildcardMark.isPrefixOf pattern then (acc.1, insertWildcard acc.2 pattern route)
        else (Function.update acc.1 pattern (some route), acc.2) := by
  unfold loadDomain domainRule
  by_cases hp : toLower (trimSpace entry.1) = []
  · simp only [hp, true_or, ↓reduceIte]
  · by_cases hr : trimSpace entry.2 = []
    · simp only [hr, or_true, ↓reduceIte, ite_self]
    · simp only [hp, hr, or_self, ↓reduceIte]

theorem loadCIDR_eq (t : CIDRTrie) (entry : Bytes × Bytes) :
    loadCIDR t entry =
      match cidrRule entry with
      | none => t
      | some (p, route) => t.insert (normalizePrefix p) route := by
  unfold loadCIDR cidrRule
  by_cases hc : trimSpace entry.1 = []
  · simp only [hc, true_or, ↓reduceIte]
  · by_cases hr : trimSpace entry.2 = []
    · simp only [hr, or_true, ↓reduceIte, ite_self]
    · simp only [hc, hr, or_self, ↓reduceIte]
      cases parsePrefix (trimSpace entry.1) <;> rfl

/-- The CIDR rules in the order of insertion. -/
theorem foldl_loadCIDR (entries : List (Bytes × Bytes)) :
    entries.foldl loadCIDR .empty = loadCIDRs (entries.filterMap cidrRule) := by
  unfold loadCIDRs
  generalize CIDRTrie.empty = t
  induction entries generalizing t with
  | nil => rfl
  | cons e es ih =>
    rw [List.foldl_cons, loadCIDR_eq]
    cases hr : cidrRule e with
    | none => rw [List.filterMap_cons_none hr, ih]
    | some r => rw [List.filterMap_cons_some hr, List.foldl_cons, ih]

/-! ## Which rule decides -/

/-- The name `ResolveRoute` looks rules up by; its second trim comes after the
test for an empty one. -/
def spelledHost (host : Bytes) : Bytes :=
  trimSuffix (withoutPort (toLower (trimSpace host))) [dot]

/-- A pattern is the name itself, or a zone the name lies below. -/
def PatternMatches (pattern name : Bytes) : Prop :=
  pattern = name ∧ wildcardMark.isPrefixOf pattern = false ∨
    ∃ suffix, wildcardSuffix pattern = some suffix ∧ Below name suffix

/-- The addresses the CIDR rules are asked for. -/
def Target (dns : Answers) (name : Bytes) (a : Addr) : Prop :=
  parseAddr name = some a ∨ parseAddr name = none ∧ ∃ ips, dns name = some ips ∧ a ∈ ips

/-- A stored domain with this route matches the name. -/
def DomainRouted (x : Stored) (name : Bytes) (route : Route) : Prop :=
  ∃ e ∈ x.domains, ∃ pattern, domainRule e = some (pattern, route) ∧ PatternMatches pattern name

/-- A stored CIDR with this route has one of the addresses. -/
def CIDRRouted (x : Stored) (dns : Answers) (name : Bytes) (route : Route) : Prop :=
  ∃ e ∈ x.cidrs, ∃ p a, cidrRule e = some (p, route) ∧ Target dns name a ∧
    (normalizePrefix p).covers a.unmap

/-- The answer is the route of a matching domain rule; without one, of a matching
CIDR rule; without one, the default. A name with an empty label may miss its
wildcard rules. -/
def Decided (direct : Route) (x : Stored) (dns : Answers) (name : Bytes) (answer : Route) : Prop :=
  DomainRouted x name answer ∨
    ([] ∉ labels name → ∀ route, ¬DomainRouted x name route) ∧
      (CIDRRouted x dns name answer ∨
        (∀ route, ¬CIDRRouted x dns name route) ∧ answer = loadDefault direct x.defaultRoute)

theorem insertWildcard_plain (t : DomainTrie) {pattern : Bytes} (route : Route)
    (h : ¬wildcardMark.isPrefixOf pattern = true) : insertWildcard t pattern route = t :=
  if_neg h

theorem wildcards_loadDomain (entries : List (Bytes × Bytes)) (m : Bytes → Option Route) :
    (entries.foldl loadDomain (m, newDomainTrie)).2 = loadWildcards (entries.filterMap domainRule) := by
  unfold loadWildcards
  generalize newDomainTrie = t
  induction entries generalizing m t with
  | nil => rfl
  | cons e es ih =>
    rw [List.foldl_cons, loadDomain_eq]
    cases hr : domainRule e with
    | none => rw [List.filterMap_cons_none hr, ih]
    | some r =>
      rw [List.filterMap_cons_some hr, List.foldl_cons]
      by_cases hw : wildcardMark.isPrefixOf r.1 = true
      · simp only [hw, ↓reduceIte, ih]
      · simp only [hw, ↓reduceIte, ih, insertWildcard_plain _ _ hw, Bool.false_eq_true]

/-- The name an entry is an exact rule for. -/
def exactName (e : Bytes × Bytes) : Option Bytes :=
  match domainRule e with
  | none => none
  | some (pattern, _) => if wildcardMark.isPrefixOf pattern then none else some pattern

theorem exactName_iff {e : Bytes × Bytes} {name : Bytes} : exactName e = some name ↔
    domainRule e = some (name, trimSpace e.2) ∧ wildcardMark.isPrefixOf name = false := by
  have hroute : ∀ {p r}, domainRule e = some (p, r) → trimSpace e.2 = r := by
    intro p r h
    simp only [domainRule, Option.ite_none_left_eq_some, Option.some.injEq, Prod.mk.injEq] at h
    exact h.2.2
  unfold exactName
  cases hr : domainRule e with
  | none => simp only [reduceCtorEq, false_and]
  | some r =>
    obtain ⟨p, a⟩ := r
    rw [hroute hr]
    by_cases hw : wildcardMark.isPrefixOf p = true
    · simp only [hw, ↓reduceIte, reduceCtorEq, Option.some.injEq, Prod.mk.injEq, and_true, false_iff,
        not_and, Bool.not_eq_false]
      intro hp
      rw [← hp, hw]
    · simp only [hw, Bool.false_eq_true, ↓reduceIte, Option.some.injEq, Prod.mk.injEq, and_true]
      constructor
      · intro hp
        exact ⟨hp, hp ▸ Bool.not_eq_true _ ▸ hw⟩
      · exact fun h => h.1

theorem exact_loadDomain_snoc (entries : List (Bytes × Bytes)) (e : Bytes × Bytes) (name : Bytes) :
    ((entries ++ [e]).foldl loadDomain (fun _ => none, newDomainTrie)).1 name =
      if exactName e = some name then some (trimSpace e.2)
      else (entries.foldl loadDomain (fun _ => none, newDomainTrie)).1 name := by
  rw [List.foldl_append, List.foldl_cons, List.foldl_nil, loadDomain_eq]
  by_cases hn : exactName e = some name
  · obtain ⟨hr, hw⟩ := exactName_iff.mp hn
    simp only [hr, hw, hn, Bool.false_eq_true, ↓reduceIte, Function.update_self]
  · rw [if_neg hn]
    unfold exactName at hn
    cases hr : domainRule e with
    | none => rfl
    | some r =>
      obtain ⟨p, a⟩ := r
      rw [hr] at hn
      by_cases hw : wildcardMark.isPrefixOf p = true
      · simp only [hw, ↓reduceIte]
      · simp only [hw, Bool.false_eq_true, ↓reduceIte, Option.some.injEq] at hn ⊢
        rw [Function.update_of_ne (Ne.symm hn)]

theorem exact_some {entries : List (Bytes × Bytes)} {name : Bytes} {route : Route}
    (h : (entries.foldl loadDomain (fun _ => none, newDomainTrie)).1 name = some route) :
    ∃ e ∈ entries, domainRule e = some (name, route) ∧ wildcardMark.isPrefixOf name = false := by
  obtain ⟨before, e, after, he, hn, rfl, -⟩ := (@LabelTrie.last_wins UInt8 Route _ (Bytes × Bytes)
    exactName (fun e => trimSpace e.2)
    (fun entries name => (entries.foldl loadDomain (fun _ => none, newDomainTrie)).1 name)
    (fun _ => rfl) exact_loadDomain_snoc entries name route).mp h
  exact ⟨e, by rw [he]; simp, exactName_iff.mp hn⟩

theorem exact_none {entries : List (Bytes × Bytes)} {name : Bytes}
    (h : (entries.foldl loadDomain (fun _ => none, newDomainTrie)).1 name = none) :
    ∀ e ∈ entries, exactName e ≠ some name :=
  (@LabelTrie.none_stored UInt8 Route _ (Bytes × Bytes)
    exactName (fun e => trimSpace e.2)
    (fun entries name => (entries.foldl loadDomain (fun _ => none, newDomainTrie)).1 name)
    (fun _ => rfl) exact_loadDomain_snoc entries name).mp h

theorem mem_normalized {x : Stored} {q : Prefix} {route : Route} :
    (q, route) ∈ normalized (x.cidrs.filterMap cidrRule) ↔
      ∃ e ∈ x.cidrs, ∃ p, cidrRule e = some (p, route) ∧ normalizePrefix p = q := by
  simp only [normalized, List.mem_map, List.mem_filterMap, Prod.mk.injEq, Prod.exists]
  constructor
  · rintro ⟨p, r, ⟨k, v, he, hr⟩, hq, rfl⟩
    exact ⟨k, v, he, p, hr, hq⟩
  · rintro ⟨k, v, he, p, hr, hq⟩
    exact ⟨p, route, ⟨k, v, he, hr⟩, hq, rfl⟩

theorem cidrRouted_of_match {x : Stored} {dns : Answers} {name : Bytes} {a : Addr} {route : Route}
    {bits : Nat} (ha : Target dns name a)
    (h : LongestMatch (normalized (x.cidrs.filterMap cidrRule)) a.unmap route bits) :
    CIDRRouted x dns name route := by
  obtain ⟨before, q, after, hrules, hc, -, -⟩ := h.rule
  obtain ⟨e, he, p, hr, rfl⟩ := mem_normalized.mp (by rw [hrules]; simp : (q, route) ∈ _)
  exact ⟨e, he, p, a, hr, ha, hc⟩

theorem uncovered {x : Stored} {a : Addr} {direct : Route}
    (h : ((loadCIDRs (x.cidrs.filterMap cidrRule)).lookup direct a).2.2 = false)
    {e : Bytes × Bytes} {p : Prefix} {route : Route} (he : e ∈ x.cidrs)
    (hr : cidrRule e = some (p, route)) : ¬(normalizePrefix p).covers a.unmap :=
  (lookup_none_iff _ _ _).mp h _ (mem_normalized.mpr ⟨e, he, p, hr, rfl⟩)

/-- The answer for an address text that no domain rule names. -/
theorem routeFor_literal {direct : Route} {dns : Answers} {cache : RouteCache} {name : Bytes} {a : Addr}
    {route : Route} {bits : Nat} {found : Bool} (hd : cache.domains name = none)
    (hw : lookupWildcard cache.wildcardDomains name = none) (ha : parseAddr name = some a)
    (hl : cache.cidrs.lookup direct a = (route, bits, found)) :
    routeFor direct dns cache name = if found then route else cache.defaultRoute := by
  rw [routeFor, hd]
  simp only [hw, ha, hl]
  cases found <;> rfl

theorem routeFor_name {direct : Route} {dns : Answers} {cache : RouteCache} {name : Bytes}
    (hd : cache.domains name = none) (hw : lookupWildcard cache.wildcardDomains name = none)
    (ha : parseAddr name = none) : routeFor direct dns cache name =
      (resolveCIDRRoute direct dns cache name).getD cache.defaultRoute := by
  rw [routeFor, hd]
  simp only [hw, ha]
  cases resolveCIDRRoute direct dns cache name <;> rfl

/-- Past the domain rules the CIDR rules decide, or the default. -/
theorem cidrs_decide {direct : Route} {x : Stored} {dns : Answers} {name : Bytes}
    (hd : (loadRoutes direct x).domains name = none)
    (hw : lookupWildcard (loadRoutes direct x).wildcardDomains name = none) :
    CIDRRouted x dns name (routeFor direct dns (loadRoutes direct x) name) ∨
      (∀ route, ¬CIDRRouted x dns name route) ∧
        routeFor direct dns (loadRoutes direct x) name = loadDefault direct x.defaultRoute := by
  have hcidrs : (loadRoutes direct x).cidrs = loadCIDRs (x.cidrs.filterMap cidrRule) :=
    foldl_loadCIDR x.cidrs
  cases ha : parseAddr name with
  | some a =>
    rcases hl : (loadRoutes direct x).cidrs.lookup direct a with ⟨route, bits, found⟩
    rw [routeFor_literal hd hw ha hl]
    rw [hcidrs] at hl
    cases found with
    | true => exact Or.inl (cidrRouted_of_match (Or.inl ha) ((lookup_some_iff _ _ _ _ _).mp hl))
    | false =>
      refine Or.inr ⟨?_, rfl⟩
      rintro r ⟨e, he, p, b, hr, hb, hc⟩
      have hab : b = a := by
        rcases hb with hb | ⟨hb, -⟩
        · rw [ha] at hb
          exact (Option.some.inj hb).symm
        · rw [ha] at hb
          cases hb
      subst hab
      exact uncovered (by rw [hl]) he hr hc
  | none =>
    rw [routeFor_name hd hw ha, resolveCIDRRoute, hcidrs]
    cases hips : dns name with
    | none =>
      refine Or.inr ⟨?_, rfl⟩
      rintro r ⟨e, he, p, b, hr, hb | ⟨-, ips, hi, -⟩, hc⟩
      · rw [ha] at hb
        cases hb
      · rw [hips] at hi
        cases hi
    | some ips =>
      rcases @bestOf_spec direct (x.cidrs.filterMap cidrRule) ips none with
        ⟨route, bits, hchosen, -, hbest⟩ | ⟨hbest, hall⟩
      · simp only [hbest, Option.map_some, Option.getD_some]
        obtain ⟨before, a, after, hsplit, hm, -⟩ := hchosen.first
        have hmem : a ∈ ips := by
          rw [hsplit]
          simp
        exact Or.inl (cidrRouted_of_match (Or.inr ⟨ha, ips, hips, hmem⟩) hm)
      · simp only [hbest, Option.map_none, Option.getD_none]
        refine Or.inr ⟨?_, rfl⟩
        rintro r ⟨e, he, p, b, hr, hb | ⟨-, ips', hi, hb⟩, hc⟩
        · rw [ha] at hb
          cases hb
        · rw [hips] at hi
          cases hi
          rcases hl : (loadCIDRs (x.cidrs.filterMap cidrRule)).lookup direct b with
            ⟨route, bits, found⟩
          cases found with
          | true =>
            obtain ⟨best, hnone, -⟩ := hall b hb route bits ((lookup_some_iff _ _ _ _ _).mp hl)
            cases hnone
          | false => exact uncovered (by rw [hl]) he hr hc

/-- The answer for a host comes from the stored rules in their order. -/
theorem routeFor_decided (direct : Route) (x : Stored) (dns : Answers) (name : Bytes) :
    Decided direct x dns name (routeFor direct dns (loadRoutes direct x) name) := by
  have hwild : (loadRoutes direct x).wildcardDomains = loadWildcards (x.domains.filterMap domainRule) :=
    wildcards_loadDomain x.domains _
  cases hd : (loadRoutes direct x).domains name with
  | some route =>
    obtain ⟨e, he, hr, hw⟩ := exact_some hd
    rw [routeFor_exact hd]
    exact Or.inl ⟨e, he, name, hr, Or.inl ⟨rfl, hw⟩⟩
  | none =>
    cases hw : lookupWildcard (loadRoutes direct x).wildcardDomains name with
    | some route =>
      have hanswer : routeFor direct dns (loadRoutes direct x) name = route := by
        simp only [routeFor, hd, hw]
      rw [hwild] at hw
      obtain ⟨suffix, hm⟩ := mostSpecific_of_lookupWildcard hw
      obtain ⟨before, pattern, after, hrules, hs, -⟩ := hm.rule
      obtain ⟨e, he, hr⟩ := List.mem_filterMap.mp (by rw [hrules]; simp :
        (pattern, route) ∈ x.domains.filterMap domainRule)
      rw [hanswer]
      exact Or.inl ⟨e, he, pattern, hr, Or.inr ⟨suffix, hs, hm.below⟩⟩
    | none =>
      refine Or.inr ⟨?_, cidrs_decide hd hw⟩
      rintro hl route ⟨e, he, pattern, hr, ⟨rfl, hplain⟩ | ⟨suffix, hs, hb⟩⟩
      · refine exact_none hd e he (exactName_iff.mpr ⟨?_, hplain⟩)
        simp only [domainRule, Option.ite_none_left_eq_some, Option.some.injEq,
          Prod.mk.injEq] at hr ⊢
        exact ⟨hr.1, hr.2.1, trivial⟩
      · rw [hwild] at hw
        exact (lookupWildcard_none_iff _ hl).mp hw (pattern, route)
          (List.mem_filterMap.mpr ⟨e, he, hr⟩) suffix hs hb

theorem resolveRoute_decided (direct : Route) (x : Stored) (dns : Answers) {host : Bytes}
    (h : spelledHost host ≠ []) : Decided direct x dns (trimSuffix (spelledHost host) [dot])
      (resolveRoute direct dns (some (loadRoutes direct x)) host) := by
  have hr : resolveRoute direct dns (some (loadRoutes direct x)) host =
      routeFor direct dns (loadRoutes direct x) (trimSuffix (spelledHost host) [dot]) := if_neg h
  rw [hr]
  exact routeFor_decided direct x dns _

end SplitProxy.Routing
