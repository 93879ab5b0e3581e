import SplitProxy.LoadOrder

/-!
# The rule that decides a host

Where no two entries are one rule with two routes, the answer for a host is the
route of every entry that is the best match, in whatever order the entries were read.
-/
namespace SplitProxy.Routing

open GoText NetIP

/-- The addresses the CIDR rules are asked for, in this order. -/
def targets (dns : Answers) (name : Bytes) : List Addr :=
  match parseAddr name with
  | some a => [a]
  | none => (dns name).getD []

/-- Some domain rule matches the name. -/
def Named (x : Stored) (name : Bytes) : Prop :=
  ∃ e ∈ x.domains, ∃ pattern route, domainRule e = some (pattern, route) ∧
    PatternMatches pattern name

/-- The name's own rule, or without one the matching wildcard with most labels. -/
def DecidingDomain (x : Stored) (name pattern : Bytes) : Prop :=
  pattern = name ∧ wildcardMark.isPrefixOf pattern = false ∨
    (∀ e ∈ x.domains, exactName e ≠ some name) ∧ [] ∉ labels name ∧
      ∃ suffix, wildcardSuffix pattern = some suffix ∧ Below name suffix ∧
        ∀ e ∈ x.domains, ∀ q route other, domainRule e = some (q, route) →
          wildcardSuffix q = some other → Below name other → other.length ≤ suffix.length

/-- No domain rule matches, no longer prefix has one of the addresses, and no prefix as
long has an earlier one. -/
def DecidingCIDR (x : Stored) (dns : Answers) (name : Bytes) (p : Prefix) : Prop :=
  ¬Named x name ∧ ∃ before a after, targets dns name = before ++ a :: after ∧
    (normalizePrefix p).covers a.unmap ∧
    ∀ e ∈ x.cidrs, ∀ q route, cidrRule e = some (q, route) →
      (∀ b ∈ targets dns name, (normalizePrefix q).covers b.unmap →
        (normalizePrefix q).bits ≤ (normalizePrefix p).bits) ∧
      ∀ b ∈ before, (normalizePrefix q).covers b.unmap →
        (normalizePrefix q).bits < (normalizePrefix p).bits

/-- No domain or CIDR rule matches. -/
def Undecided (x : Stored) (dns : Answers) (name : Bytes) : Prop :=
  ¬Named x name ∧ ∀ e ∈ x.cidrs, ∀ q route, cidrRule e = some (q, route) →
    ∀ b ∈ targets dns name, ¬(normalizePrefix q).covers b.unmap

variable {direct : Route} {x : Stored} {dns : Answers} {name pattern : Bytes} {route : Route}
variable {p : Prefix} {e : Bytes × Bytes}

/-! ## Domain rules -/

theorem below_unique {s s' : List Bytes} (h : Below name s) (h' : Below name s')
    (hl : s.length = s'.length) : s = s' :=
  (List.suffix_of_suffix_length_le h.1 h'.1 (Nat.le_of_eq hl)).eq_of_length hl

theorem wildcardSuffix_inj {q : Bytes} {s : List Bytes} (hp : wildcardSuffix pattern = some s)
    (hq : wildcardSuffix q = some s) : pattern = q := by
  simp only [wildcardSuffix, Option.ite_none_right_eq_some, Option.some.injEq] at hp hq
  obtain ⟨⟨hmark, -⟩, hs⟩ := hp
  obtain ⟨⟨hmark', -⟩, hs'⟩ := hq
  exact pattern_inj hmark hmark' (labels_injective (hs.trans hs'.symm))

theorem exactName_of_rule (hr : domainRule e = some (pattern, route))
    (hplain : wildcardMark.isPrefixOf pattern = false) : exactName e = some pattern := by
  simp only [exactName, hr, hplain, Bool.false_eq_true, ↓reduceIte]

theorem domains_none (h : ∀ e ∈ x.domains, exactName e ≠ some name) :
    (loadRoutes direct x).domains name = none := by
  cases hd : (loadRoutes direct x).domains name with
  | none => rfl
  | some found =>
    obtain ⟨e, he, hr, hplain⟩ := exact_some hd
    exact absurd (exactName_of_rule hr hplain) (h e he)

/-- Without a matching domain rule the answer comes from the CIDR rules. -/
theorem unnamed_misses (h : ¬Named x name) : (loadRoutes direct x).domains name = none ∧
    lookupWildcard (loadRoutes direct x).wildcardDomains name = none := by
  refine ⟨domains_none fun e he hn => ?_, ?_⟩
  · obtain ⟨hr, hplain⟩ := exactName_iff.mp hn
    exact h ⟨e, he, name, _, hr, Or.inl ⟨rfl, hplain⟩⟩
  · rw [show (loadRoutes direct x).wildcardDomains = _ from wildcards_loadDomain x.domains _]
    cases hw : lookupWildcard (loadWildcards (x.domains.filterMap domainRule)) name with
    | none => rfl
    | some found =>
      obtain ⟨suffix, ⟨before, pattern, after, hrules, hs, -⟩, hb, -⟩ := mostSpecific_of_lookupWildcard hw
      obtain ⟨e, he, hr⟩ := List.mem_filterMap.mp (by rw [hrules]; simp :
        (pattern, found) ∈ x.domains.filterMap domainRule)
      exact absurd ⟨e, he, pattern, found, hr, Or.inr ⟨suffix, hs, hb⟩⟩ h

/-- A domain entry that is the best match has its route. -/
theorem routeFor_domain (hagree : ∀ e ∈ x.domains, ∀ e' ∈ x.domains, DomainsAgree e e')
    (he : e ∈ x.domains) (hr : domainRule e = some (pattern, route))
    (hbest : DecidingDomain x name pattern) :
    routeFor direct dns (loadRoutes direct x) name = route := by
  rcases hbest with ⟨rfl, hplain⟩ | ⟨hno, hl, suffix, hs, hb, hlongest⟩
  · cases hd : (loadRoutes direct x).domains pattern with
    | none => exact absurd (exactName_of_rule hr hplain) (exact_none hd e he)
    | some found =>
      obtain ⟨e', he', hr', -⟩ := exact_some hd
      rw [routeFor_exact hd]
      refine hagree e' he' e he pattern found route hr' hr fun hmark => ?_
      rw [hplain] at hmark
      cases hmark
  · have hwild : (loadRoutes direct x).wildcardDomains = loadWildcards (x.domains.filterMap domainRule) :=
      wildcards_loadDomain x.domains _
    have hmem : (pattern, route) ∈ x.domains.filterMap domainRule := List.mem_filterMap.mpr ⟨e, he, hr⟩
    cases hw : lookupWildcard (loadRoutes direct x).wildcardDomains name with
    | none =>
      rw [hwild] at hw
      exact absurd hb ((lookupWildcard_none_iff _ hl).mp hw _ hmem suffix hs)
    | some found =>
      have hanswer : routeFor direct dns (loadRoutes direct x) name = found := by
        simp only [routeFor, domains_none hno, hw]
      rw [hwild] at hw
      obtain ⟨other, ⟨before, q, after, hrules, hs', -⟩, hb', hlongest'⟩ :=
        mostSpecific_of_lookupWildcard hw
      obtain ⟨e', he', hr'⟩ := List.mem_filterMap.mp (by rw [hrules]; simp :
        (q, found) ∈ x.domains.filterMap domainRule)
      have hlen : other.length = suffix.length :=
        Nat.le_antisymm (hlongest e' he' q found other hr' hs' hb') (hlongest' _ hmem suffix hs hb)
      have hpq : q = pattern := wildcardSuffix_inj (below_unique hb' hb hlen ▸ hs') hs
      subst hpq
      rw [hanswer]
      exact hagree e' he' e he q found route hr' hr fun _ => by
        rw [hs]
        exact Option.some_ne_none _

/-! ## CIDR rules -/

/-- Two normal prefixes of one length with one address are the same. -/
theorem covers_unique {q : Prefix} {a : Addr} (h : (normalizePrefix p).covers a)
    (h' : (normalizePrefix q).covers a)
    (hbits : (normalizePrefix p).bits = (normalizePrefix q).bits) :
    normalizePrefix p = normalizePrefix q := by
  obtain ⟨six, ks, as, hk, ha, hks⟩ := Prefix.covers_iff.mp h
  obtain ⟨six', ks', as', hk', ha', hks'⟩ := Prefix.covers_iff.mp h'
  have hfamily : six = six' ∧ as = as' := by
    cases a with
    | invalid => cases six <;> cases ha
    | v4 y =>
      cases six <;> cases ha
      cases six' <;> cases ha'
      exact ⟨rfl, rfl⟩
    | v6 y z =>
      cases six <;> cases ha
      cases six' <;> cases ha'
      exact ⟨rfl, rfl⟩
  obtain ⟨rfl, rfl⟩ := hfamily
  rw [hks', ← hbits, ← hks] at hk'
  exact path_inj (normalizePrefix_masked p) (normalizePrefix_masked q) hk hk'

/-- Past the domain rules, a literal and a name are treated alike. -/
theorem routeFor_targets (h : ¬Named x name) :
    routeFor direct dns (loadRoutes direct x) name =
      ((bestOf direct (loadCIDRs (x.cidrs.filterMap cidrRule)) (targets dns name) none).map
        Prod.fst).getD (loadDefault direct x.defaultRoute) := by
  obtain ⟨hd, hw⟩ := @unnamed_misses direct x name h
  have hcidrs : (loadRoutes direct x).cidrs = loadCIDRs (x.cidrs.filterMap cidrRule) :=
    foldl_loadCIDR x.cidrs
  cases ha : parseAddr name with
  | some a =>
    rcases hl : (loadRoutes direct x).cidrs.lookup direct a with ⟨route, bits, found⟩
    rw [routeFor_literal hd hw ha hl]
    rw [hcidrs] at hl
    cases found <;> simp only [targets, ha, bestOf, hl] <;> rfl
  | none =>
    rw [routeFor_name hd hw ha, resolveCIDRRoute, hcidrs]
    cases hips : dns name with
    | none =>
      simp only [targets, ha, hips]
      rfl
    | some ips =>
      simp only [targets, ha, hips, Option.getD_some]
      rfl

/-- An address some rule covers has a longest match, no shorter than the rule. -/
theorem longestMatch_of_covers {a : Addr} (he : e ∈ x.cidrs) (hr : cidrRule e = some (p, route))
    (hc : (normalizePrefix p).covers a.unmap) : ∃ r n,
      LongestMatch (normalized (x.cidrs.filterMap cidrRule)) a.unmap r n ∧
        (normalizePrefix p).bits ≤ (n : Int) := by
  have hmem := mem_normalized.mpr ⟨e, he, p, hr, rfl⟩
  rcases hl : (loadCIDRs (x.cidrs.filterMap cidrRule)).lookup [] a with ⟨r, n, found⟩
  cases found with
  | false => exact absurd hc ((lookup_none_iff [] _ a).mp (by rw [hl]) _ hmem)
  | true =>
    have hm := (lookup_some_iff [] _ a r n).mp hl
    exact ⟨r, n, hm, hm.longest _ hmem hc⟩

/-- A CIDR entry that is the best match has its route. -/
theorem routeFor_cidr (hagree : ∀ e ∈ x.cidrs, ∀ e' ∈ x.cidrs, CIDRsAgree e e')
    (he : e ∈ x.cidrs) (hr : cidrRule e = some (p, route)) (hbest : DecidingCIDR x dns name p) :
    routeFor direct dns (loadRoutes direct x) name = route := by
  obtain ⟨hno, before, a, after, hsplit, hc, hmax⟩ := hbest
  obtain ⟨r, n, hm, hn⟩ := longestMatch_of_covers he hr hc
  have ha : a ∈ targets dns name := by rw [hsplit]; simp
  rw [routeFor_targets hno]
  rcases @bestOf_spec direct (x.cidrs.filterMap cidrRule) (targets dns name) none with
    ⟨found, bits, hchosen, -, hbest⟩ | ⟨-, hall⟩
  · rw [hbest]
    change found = route
    obtain ⟨before', a', after', hsplit', hm', hbefore'⟩ := hchosen.first
    obtain ⟨front, q', back, hrules, hc', hbits', -⟩ := hm'.rule
    obtain ⟨e', he', q, hr', rfl⟩ := mem_normalized.mp (by rw [hrules]; simp :
      (q', found) ∈ normalized (x.cidrs.filterMap cidrRule))
    have ha' : a' ∈ targets dns name := by rw [hsplit']; simp
    have hle := (hmax e' he' q found hr').1 a' ha' hc'
    have hge := hchosen.longest a ha r n hm
    have hbits : (normalizePrefix p).bits = (normalizePrefix q).bits := by omega
    -- both are the first address with a match of this length
    have hsame : a = a' := by
      rw [hsplit] at hsplit'
      rcases List.append_eq_append_iff.mp hsplit' with ⟨ds, hb, ht⟩ | ⟨ds, hb, ht⟩
      · cases ds with
        | nil => exact (List.cons.inj ht).1
        | cons b ds =>
          have hab : a = b := (List.cons.inj ht).1
          have hlt := hbefore' a (by rw [hb, hab]; simp) r n hm
          omega
      · cases ds with
        | nil => exact (List.cons.inj ht).1.symm
        | cons b ds =>
          have hab : a' = b := (List.cons.inj ht).1
          have hlt := (hmax e' he' q found hr').2 a' (by rw [hb, hab]; simp) hc'
          omega
    subst hsame
    exact hagree e' he' e he q p found route hr' hr (covers_unique hc hc' hbits).symm
  · obtain ⟨b, hb, -⟩ := hall a ha r n hm
    cases hb

/-- A host no rule matches has the default route. -/
theorem routeFor_undecided (h : Undecided x dns name) :
    routeFor direct dns (loadRoutes direct x) name = loadDefault direct x.defaultRoute := by
  rw [routeFor_targets h.1, bestOf_none]
  · rfl
  · rintro a ha ⟨q, r⟩ hq
    obtain ⟨e, he, p, hr, rfl⟩ := mem_normalized.mp hq
    exact h.2 e he p r hr a ha

end SplitProxy.Routing
