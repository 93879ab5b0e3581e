import SplitProxy.RouteReferences

/-!
# The order of a load

`loadRoutes` visits the two hashes in any order. Two entries that come down to
one rule and disagree on its route make two orders leave two caches; without such
entries every order gives the same cache.
-/
namespace SplitProxy.Routing

open GoText NetIP

/-- A route is stored for the pattern; at an empty label `insertWildcard` returns before. -/
def Taken (pattern : Bytes) : Prop :=
  wildcardMark.isPrefixOf pattern = true → wildcardSuffix pattern ≠ none

/-- Two stored domains that are one pattern have one route. -/
def DomainsAgree (e e' : Bytes × Bytes) : Prop :=
  ∀ pattern a b, domainRule e = some (pattern, a) → domainRule e' = some (pattern, b) →
    Taken pattern → a = b

/-- Two stored CIDRs that are one prefix have one route. -/
def CIDRsAgree (e e' : Bytes × Bytes) : Prop :=
  ∀ p q a b, cidrRule e = some (p, a) → cidrRule e' = some (q, b) →
    normalizePrefix p = normalizePrefix q → a = b

variable {e e' : Bytes × Bytes}

theorem DomainsAgree.symm (h : DomainsAgree e e') : DomainsAgree e' e :=
  fun pattern a b ha hb ht => (h pattern b a hb ha ht).symm

theorem CIDRsAgree.symm (h : CIDRsAgree e e') : CIDRsAgree e' e :=
  fun p q a b ha hb hn => (h q p b a hb ha hn.symm).symm

theorem loadDomain_comm (acc : (Bytes → Option Route) × DomainTrie) (h : DomainsAgree e e') :
    loadDomain (loadDomain acc e) e' = loadDomain (loadDomain acc e') e := by
  simp only [loadDomain_eq]
  cases hr : domainRule e with
  | none => rfl
  | some r =>
    obtain ⟨p, a⟩ := r
    cases hr' : domainRule e' with
    | none => rfl
    | some r' =>
      obtain ⟨q, b⟩ := r'
      have hpq : p = q → Taken p → a = b := fun hpq => h p a b hr (hpq ▸ hr')
      by_cases hp : wildcardMark.isPrefixOf p = true
      · by_cases hq : wildcardMark.isPrefixOf q = true
        · simp only [hp, hq, ↓reduceIte, insertWildcard_comm acc.2 a b fun he hs => hpq he fun _ => hs]
        · simp only [hp, hq, ↓reduceIte, Bool.false_eq_true]
      · by_cases hq : wildcardMark.isPrefixOf q = true
        · simp only [hp, hq, ↓reduceIte, Bool.false_eq_true]
        · simp only [hp, hq, ↓reduceIte, Bool.false_eq_true]
          by_cases he : p = q
          · rw [he, hpq he (fun hw => absurd hw hp)]
          · rw [Function.update_comm he]

theorem loadCIDR_comm (t : CIDRTrie) (h : CIDRsAgree e e') :
    loadCIDR (loadCIDR t e) e' = loadCIDR (loadCIDR t e') e := by
  simp only [loadCIDR_eq]
  cases hr : cidrRule e with
  | none => rfl
  | some r =>
    obtain ⟨p, a⟩ := r
    cases hr' : cidrRule e' with
    | none => rfl
    | some r' =>
      obtain ⟨q, b⟩ := r'
      apply CIDRTrie.insert_comm
      intro six ks hp hq
      exact h p q a b hr hr'
        (path_inj (normalizePrefix_masked p) (normalizePrefix_masked q) hp hq)

/-- Two loads of the same hashes that may visit them in different orders. -/
structure SameRules (x y : Stored) : Prop where
  domains : x.domains.Perm y.domains
  cidrs : x.cidrs.Perm y.cidrs
  defaultRoute : x.defaultRoute = y.defaultRoute

/-- Without disagreeing entries the order of the load does not show. -/
theorem loadRoutes_perm {x y : Stored} (h : SameRules x y)
    (hd : ∀ e ∈ x.domains, ∀ e' ∈ x.domains, DomainsAgree e e')
    (hc : ∀ e ∈ x.cidrs, ∀ e' ∈ x.cidrs, CIDRsAgree e e') (direct : Route) :
    loadRoutes direct x = loadRoutes direct y := by
  have hdomains := h.domains.foldl_eq' (fun e he e' he' acc => loadDomain_comm acc (hd e he e' he'))
    (fun _ => none, newDomainTrie)
  have hcidrs := h.cidrs.foldl_eq' (fun e he e' he' t => loadCIDR_comm t (hc e he e' he'))
    CIDRTrie.empty
  simp only [loadRoutes, hdomains, hcidrs, h.defaultRoute]

/-! ## Two caches of disagreeing entries -/

/-- The later of two routes of one domain pattern stays. -/
theorem loadDomain_last {pattern : Bytes} {a b : Route}
    (acc : (Bytes → Option Route) × DomainTrie) (hr : domainRule e = some (pattern, a))
    (hr' : domainRule e' = some (pattern, b)) (ht : Taken pattern)
    (h : loadDomain (loadDomain acc e) e' = loadDomain (loadDomain acc e') e) : a = b := by
  simp only [loadDomain_eq, hr, hr'] at h
  by_cases hw : wildcardMark.isPrefixOf pattern = true
  · obtain ⟨suffix, hs⟩ := Option.ne_none_iff_exists'.mp (ht hw)
    have hpath : wildcardPath pattern = some suffix.reverse := by rw [wildcardPath, hs]; rfl
    simp only [hw, ↓reduceIte] at h
    have hfind := congrArg (fun c => c.2.find suffix.reverse) h
    simp only [find_insertWildcard, hpath, ↓reduceIte, Option.some.injEq] at hfind
    exact hfind.symm
  · simp only [hw, ↓reduceIte, Bool.false_eq_true] at h
    have hfind := congrArg (fun c => c.1 pattern) h
    simp only [Function.update_self, Option.some.injEq] at hfind
    exact hfind.symm

theorem normalizePrefix_valid {p : Prefix} (hv : p.isValid = true) :
    (normalizePrefix p).isValid = true := by
  have hpos : 0 < p.bitsPlusOne := by simpa [Prefix.isValid] using hv
  have hmasked : p.masked.isValid = true := by
    cases hip : p.ip with
    | invalid =>
      have hf := (p.fits hpos).1
      rw [hip] at hf
      cases hf
    | v4 x => simp [Prefix.isValid, (Prefix.masked_v4 hv hip).2, hpos]
    | v6 x z => simp [Prefix.isValid, (Prefix.masked_v6 hv hip).2, hpos]
  unfold normalizePrefix
  dsimp only
  split
  · rename_i hmapped
    have hle := p.masked.bits_le hmasked
    obtain ⟨x, hx⟩ : ∃ x, p.masked.ip.unmap = .v4 x := by
      cases hu : p.masked.ip.unmap with
      | v4 x => exact ⟨x, rfl⟩
      | _ =>
        rw [hu] at hmapped
        cases hmapped.2.1
    have h128 : p.masked.ip.bitLen ≤ 128 := by cases p.masked.ip <;> simp [Addr.bitLen]
    obtain ⟨n, hn⟩ : ∃ n : Nat, p.masked.bits - 96 = n := ⟨(p.masked.bits - 96).toNat, by omega⟩
    have h32 : n ≤ 32 := by omega
    rw [hx, hn, masked_prefixFrom_v4 h32]
    simp [Prefix.isValid, (@prefixFrom_eq (.v4 (x &&& maskTop n)) n rfl h32).2]
  · exact hmasked

theorem parsePrefix_valid {c : Bytes} {p : Prefix} (h : parsePrefix c = some p) :
    p.isValid = true := by
  unfold parsePrefix at h
  cases hs : splitLast slash c with
  | none =>
    rw [hs] at h
    cases h
  | some parts =>
    rw [hs] at h
    simp only at h
    cases ha : parseAddr parts.1 with
    | none =>
      rw [ha] at h
      cases h
    | some ip =>
      rw [ha] at h
      simp only at h
      repeat' split at h
      all_goals cases h
      rename_i bits _ hrange
      obtain ⟨n, rfl⟩ : ∃ n : Nat, bits = n := ⟨bits.toNat, by omega⟩
      simp [Prefix.isValid, (@prefixFrom_eq ip n (parseAddr_valid ha) (by omega)).2]

theorem loadCIDR_last {p q : Prefix} {a b : Route} (t : CIDRTrie)
    (hr : cidrRule e = some (p, a)) (hr' : cidrRule e' = some (q, b))
    (hn : normalizePrefix p = normalizePrefix q)
    (h : loadCIDR (loadCIDR t e) e' = loadCIDR (loadCIDR t e') e) : a = b := by
  have hparse : ∃ c, parsePrefix c = some p := by
    simp only [cidrRule, Option.ite_none_left_eq_some, Option.map_eq_some_iff, Prod.mk.injEq] at hr
    obtain ⟨-, _, hc, rfl, -⟩ := hr
    exact ⟨_, hc⟩
  obtain ⟨c, hc⟩ := hparse
  obtain ⟨six, ks, hpath⟩ := Prefix.path_of_valid (normalizePrefix_valid (parsePrefix_valid hc))
  simp only [loadCIDR_eq, hr, hr', ← hn] at h
  have hfind := congrArg (fun t : CIDRTrie => (t.tree six).find ks) h
  simp only [CIDRTrie.find_insert, hpath, ↓reduceIte, Option.some.injEq] at hfind
  exact hfind.symm

/-- Two entries of a hash can be the last two of a visit. -/
theorem perm_lastTwo {l : List (Bytes × Bytes)} (he : e ∈ l) (he' : e' ∈ l) (hne : e ≠ e') :
    ∃ rest, (rest ++ [e, e']).Perm l ∧ (rest ++ [e', e]).Perm l := by
  have hl := List.perm_cons_erase he
  have hl' := List.perm_cons_erase ((List.mem_erase_of_ne (Ne.symm hne)).mpr he')
  have hfirst : ([e, e'] ++ (l.erase e).erase e').Perm l := ((hl'.cons e).symm).trans hl.symm
  have hsecond : ([e', e] ++ (l.erase e).erase e').Perm l := (List.Perm.swap _ _ _).trans hfirst
  exact ⟨_, List.perm_append_comm.trans hfirst, List.perm_append_comm.trans hsecond⟩

end SplitProxy.Routing

namespace SplitProxy.Admin

open Runs GoText SyncMap Routing

variable {d : Bytes} {s t : Store} {r : Request}

/-- What one execution of `loadRoutes` may read. -/
def Reads (s : Store) (x : Stored) : Prop := SameRules x ⟨s.domains, s.cidrs, s.defaultRoute⟩

/-- Any two loads leave the same cache. -/
def OneCache (d : Bytes) (s : Store) : Prop :=
  ∀ x y, Reads s x → Reads s y → loadRoutes d x = loadRoutes d y

/-- Any two loads give the same answers. -/
def OrderFree (d : Bytes) (s : Store) : Prop :=
  ∀ x y, Reads s x → Reads s y → ∀ (dns : Answers) (host : Bytes),
    resolveRoute d dns (some (loadRoutes d x)) host = resolveRoute d dns (some (loadRoutes d y)) host

/-- No key that is written is the same rule as another stored key with another route. -/
def Agrees (s : Store) : Change → Prop
  | .setDomains patterns g =>
    ∀ k ∈ patterns, ∀ e ∈ s.domains, e.1 ∉ patterns → DomainsAgree (k, routeName g) e
  | .setCIDRs cidrs g =>
    ∀ k ∈ cidrs, ∀ e ∈ s.cidrs, e.1 ∉ cidrs → CIDRsAgree (k, routeName g) e
  | _ => True

def WritesAgree (d : Bytes) (s : Store) (r : Request) : Prop := Agrees s (handle d s r).2

structure AllAgree (s : Store) : Prop where
  domains : ∀ e ∈ s.domains, ∀ e' ∈ s.domains, DomainsAgree e e'
  cidrs : ∀ e ∈ s.cidrs, ∀ e' ∈ s.cidrs, CIDRsAgree e e'

theorem allAgree_installed (d : Bytes) : AllAgree (installed d) := ⟨nofun, nofun⟩

/-- Entries written with one value agree with each other and with what they leave. -/
theorem hsetAll_agree {A : Bytes × Bytes → Bytes × Bytes → Prop} (hsymm : ∀ {e e'}, A e e' → A e' e)
    {hash : Entries Bytes Bytes} {keys : List Bytes} {v : Bytes}
    (hone : ∀ k k', A (k, v) (k', v)) (hash_agrees : ∀ e ∈ hash, ∀ e' ∈ hash, A e e')
    (hnew : ∀ k ∈ keys, ∀ e ∈ hash, e.1 ∉ keys → A (k, v) e) :
    ∀ e ∈ hsetAll hash keys v, ∀ e' ∈ hsetAll hash keys v, A e e' := by
  rintro ⟨k, w⟩ he ⟨k', w'⟩ he'
  rcases mem_of_hsetAll he with ⟨hold, hk⟩ | ⟨hk, hw⟩
  · rcases mem_of_hsetAll he' with ⟨hold', -⟩ | ⟨hk', hw'⟩
    · exact hash_agrees _ hold _ hold'
    · cases hw'
      exact hsymm (hnew k' hk' _ hold hk)
  · cases hw
    rcases mem_of_hsetAll he' with ⟨hold', hk'⟩ | ⟨-, hw'⟩
    · exact hnew k hk _ hold' hk'
    · cases hw'
      exact hone k k'

theorem domainsAgree_one (k k' v : Bytes) : DomainsAgree (k, v) (k', v) := by
  intro pattern a b ha hb _
  simp only [domainRule, Option.ite_none_left_eq_some, Option.some.injEq, Prod.mk.injEq] at ha hb
  rw [← ha.2.2, ← hb.2.2]

theorem cidrsAgree_one (k k' v : Bytes) : CIDRsAgree (k, v) (k', v) := by
  intro p q a b ha hb _
  simp only [cidrRule, Option.ite_none_left_eq_some, Option.map_eq_some_iff, Prod.mk.injEq] at ha hb
  obtain ⟨-, -, -, -, rfl⟩ := ha
  obtain ⟨-, -, -, -, rfl⟩ := hb
  rfl

theorem allAgree_step (hi : AllAgree s) (hC : WritesAgree d s r) (h : step d s r = some t) :
    AllAgree t := by
  cases h
  unfold WritesAgree at hC
  cases hc : (handle d s r).2 with
  | none => exact hi
  | addGroup name => exact ⟨hi.domains, hi.cidrs⟩
  | renameGroup pk name => exact ⟨hi.domains, hi.cidrs⟩
  | dropGroup pk => exact ⟨hi.domains, hi.cidrs⟩
  | setDomains patterns g =>
    rw [hc] at hC
    exact ⟨hsetAll_agree DomainsAgree.symm (fun k k' => domainsAgree_one k k' _) hi.domains hC,
      hi.cidrs⟩
  | dropDomain pattern =>
    exact ⟨fun e he e' he' => hi.domains e (List.mem_filter.mp he).1 e' (List.mem_filter.mp he').1,
      hi.cidrs⟩
  | setCIDRs cidrs g =>
    rw [hc] at hC
    exact ⟨hi.domains,
      hsetAll_agree CIDRsAgree.symm (fun k k' => cidrsAgree_one k k' _) hi.cidrs hC⟩
  | dropCIDR cidr =>
    exact ⟨hi.domains,
      fun e he e' he' => hi.cidrs e (List.mem_filter.mp he).1 e' (List.mem_filter.mp he').1⟩
  | setDefault name => exact ⟨hi.domains, hi.cidrs⟩

theorem oneCache_of_allAgree (h : AllAgree s) : OneCache d s := by
  have hd : ∀ z, Reads s z → loadRoutes d z = loadRoutes d ⟨s.domains, s.cidrs, s.defaultRoute⟩ := by
    intro z hz
    apply loadRoutes_perm hz
    · intro e he e' he'
      exact h.domains e (hz.domains.mem_iff.mp he) e' (hz.domains.mem_iff.mp he')
    · intro e he e' he'
      exact h.cidrs e (hz.cidrs.mem_iff.mp he) e' (hz.cidrs.mem_iff.mp he')
  intro x y hx hy
  rw [hd x hx, hd y hy]

theorem OneCache.domains (h : OneCache d s) :
    ∀ e ∈ s.domains, ∀ e' ∈ s.domains, DomainsAgree e e' := by
  intro e he e' he' pattern a b hr hr' ht
  by_cases hee : e = e'
  · rw [hee, hr'] at hr
    cases hr
    rfl
  · obtain ⟨rest, hx, hy⟩ := perm_lastTwo he he' hee
    have hsame := h ⟨rest ++ [e, e'], s.cidrs, s.defaultRoute⟩
      ⟨rest ++ [e', e], s.cidrs, s.defaultRoute⟩ ⟨hx, .refl _, rfl⟩ ⟨hy, .refl _, rfl⟩
    simp only [loadRoutes, List.foldl_append, List.foldl_cons, List.foldl_nil,
      RouteCache.mk.injEq] at hsame
    exact loadDomain_last _ hr hr' ht (Prod.ext hsame.1 hsame.2.1)

theorem OneCache.cidrs (h : OneCache d s) : ∀ e ∈ s.cidrs, ∀ e' ∈ s.cidrs, CIDRsAgree e e' := by
  intro e he e' he' p q a b hr hr' hn
  by_cases hee : e = e'
  · rw [hee, hr'] at hr
    cases hr
    rfl
  · obtain ⟨rest, hx, hy⟩ := perm_lastTwo he he' hee
    have hsame := h ⟨s.domains, rest ++ [e, e'], s.defaultRoute⟩
      ⟨s.domains, rest ++ [e', e], s.defaultRoute⟩ ⟨.refl _, hx, rfl⟩ ⟨.refl _, hy, rfl⟩
    simp only [loadRoutes, List.foldl_append, List.foldl_cons, List.foldl_nil,
      RouteCache.mk.injEq] at hsame
    exact loadCIDR_last _ hr hr' hn hsame.2.2.1

theorem oneCache_iff : OneCache d s ↔ AllAgree s :=
  ⟨fun h => ⟨h.domains, h.cidrs⟩, oneCache_of_allAgree⟩

/-- A write that does not agree leaves two entries that do not. -/
theorem writesAgree_of_step (h : step d s r = some t) (ht : AllAgree t) : WritesAgree d s r := by
  cases h
  unfold WritesAgree
  cases hc : (handle d s r).2 with
  | setDomains patterns g =>
    rw [hc] at ht
    intro k hk e he hne
    exact ht.domains _ (mem_hsetAll hk) e (mem_hsetAll_old he hne)
  | setCIDRs cidrs g =>
    rw [hc] at ht
    intro k hk e he hne
    exact ht.cidrs _ (mem_hsetAll hk) e (mem_hsetAll_old he hne)
  | _ => trivial

/-- The runs whose writes agree with what is stored are those in which a load leaves one
cache, whatever the order; and then every order gives the same answers. -/
theorem order_free_iff_writes_agree (d : Bytes) (rs : List Request) :
    (Always (step d) (OneCache d) (installed d) rs ↔
      Meets (step d) (WritesAgree d) (installed d) rs) ∧
    (Meets (step d) (WritesAgree d) (installed d) rs →
      Always (step d) (OrderFree d) (installed d) rs) := by
  have hiff : Always (step d) (OneCache d) (installed d) rs ↔
      Meets (step d) (WritesAgree d) (installed d) rs := by
    refine always_iff_meets (fun _ _ _ (hi : True) _ => hi) (fun s r t _ hs hC h => ?_)
      (fun s r _ _ hC => ?_) trivial (oneCache_iff.mpr (allAgree_installed d))
    · exact oneCache_iff.mpr (allAgree_step (oneCache_iff.mp hs) hC h)
    · exact ⟨_, rfl, fun ht => hC (writesAgree_of_step rfl (oneCache_iff.mp ht))⟩
  refine ⟨hiff, fun h es₁ es₂ t he hr x y hx hy dns host => ?_⟩
  rw [hiff.mpr h es₁ es₂ t he hr x y hx hy]

/-- `a.b` and `A.B`, both direct. -/
def twoSpellings : List Request := [.createDomains [[0x61, 0x2E, 0x62]] .null,
  .createDomains [[0x41, 0x2E, 0x42]] .null]

theorem order_free_two_spellings :
    Always (step directRoute) (OrderFree directRoute) (installed directRoute) twoSpellings := by
  refine (order_free_iff_writes_agree directRoute twoSpellings).2 ⟨?_, fun t ht => ?_⟩
  · intro k _ e he
    cases he
  · cases ht
    refine ⟨?_, fun _ _ => trivial⟩
    intro k _ e he _
    cases List.mem_singleton.mp he
    exact domainsAgree_one k _ _

/-- `10.0.0.0/8` is direct and `10.0.0.1/8` goes to the group `eu`. -/
def maskedTwice : List Request :=
  [.createGroup (some [0x65, 0x75]),
   .createCIDRs [[0x31, 0x30, 0x2E, 0x30, 0x2E, 0x30, 0x2E, 0x30, 0x2F, 0x38]] .null,
   .createCIDRs [[0x31, 0x30, 0x2E, 0x30, 0x2E, 0x30, 0x2E, 0x31, 0x2F, 0x38]] (.pk 1)]

/-- The entries, in the order of one visit. -/
def maskedEntries : List (Bytes × Bytes) :=
  [([0x31, 0x30, 0x2E, 0x30, 0x2E, 0x30, 0x2E, 0x31, 0x2F, 0x38], [0x65, 0x75]),
   ([0x31, 0x30, 0x2E, 0x30, 0x2E, 0x30, 0x2E, 0x30, 0x2F, 0x38], directRoute)]

/-- The host `10.0.0.9` goes direct or to `eu` as the map happens to be visited. -/
theorem masked_twice_ordered :
    ∃ s, run (step directRoute) (installed directRoute) maskedTwice = some s ∧
      ¬OrderFree directRoute s := by
  refine ⟨⟨[⟨1, [0x65, 0x75]⟩], 2, [], maskedEntries, some directRoute⟩, by decide +kernel,
    fun h => ?_⟩
  have hswap := h ⟨[], maskedEntries, some directRoute⟩ ⟨[], maskedEntries.reverse, some directRoute⟩
    ⟨.nil, .refl _, rfl⟩ ⟨.nil, List.reverse_perm _, rfl⟩ (fun _ => none)
    [0x31, 0x30, 0x2E, 0x30, 0x2E, 0x30, 0x2E, 0x39]
  exact absurd hswap (by decide +kernel)

end SplitProxy.Admin
