import SplitProxy.HostSpelling

/-!
# The addresses behind a direct route

`resolveCIDRRoute` gives a name one route, that of the longest prefix any of its
addresses matches, the first of equal ones. The direct dialer then tries every
address the policy lets through, whatever its own match.
-/
namespace SplitProxy.Direct

open GoText NetIP Routing HTTPConnect

/-- The route of the longest prefix that covers the address, and its length. -/
def matchOf (routeDirect : Route) (cidrs : CIDRTrie) (a : Addr) : Option (Route × Nat) :=
  match cidrs.lookup routeDirect a with
  | (route, bits, true) => some (route, bits)
  | (_, _, false) => none

/-- Where the address alone would go. -/
def ownRoute (routeDirect : Route) (cache : RouteCache) (a : Addr) : Route :=
  match matchOf routeDirect cache.cidrs a with
  | some (route, _) => route
  | none => cache.defaultRoute

variable {routeDirect route : Route} {cidrs : CIDRTrie} {cache : RouteCache} {a : Addr}
  {ips : List Addr} {bits : Nat}

theorem matchOf_unmap (routeDirect : Route) (cidrs : CIDRTrie) (a : Addr) :
    matchOf routeDirect cidrs a.unmap = matchOf routeDirect cidrs a := by
  simp only [matchOf, CIDRTrie.lookup, Addr.isValid_unmap, Addr.unmap_unmap]

/-! ## The longest match of a list -/

/-- Of the addresses with the longest match, the first has this one. -/
def FirstLongest (f : Addr → Option (Route × Nat)) (ips : List Addr) (route : Route) (bits : Nat) : Prop :=
  ∃ before a after, ips = before ++ a :: after ∧ f a = some (route, bits) ∧
    (∀ b ∈ before, ∀ m ∈ f b, m.2 < bits) ∧ ∀ b ∈ after, ∀ m ∈ f b, m.2 ≤ bits

theorem firstLongest_cons {f : Addr → Option (Route × Nat)} : FirstLongest f (a :: ips) route bits ↔
    (f a = some (route, bits) ∧ ∀ b ∈ ips, ∀ m ∈ f b, m.2 ≤ bits) ∨
      (FirstLongest f ips route bits ∧ ∀ m ∈ f a, m.2 < bits) := by
  constructor
  · rintro ⟨before, b, after, he, hb, hbefore, hafter⟩
    cases before with
    | nil =>
      cases he
      exact Or.inl ⟨hb, hafter⟩
    | cons c before =>
      cases he
      refine Or.inr ⟨⟨before, b, after, rfl, hb, ?_, hafter⟩, hbefore a List.mem_cons_self⟩
      exact fun x hx => hbefore x (List.mem_cons_of_mem a hx)
  · rintro (⟨ha, hall⟩ | ⟨⟨before, b, after, rfl, hb, hbefore, hafter⟩, ha⟩)
    · exact ⟨[], a, ips, rfl, ha, by simp, hall⟩
    · refine ⟨a :: before, b, after, rfl, hb, fun x hx => ?_, hafter⟩
      rcases List.mem_cons.mp hx with rfl | hx
      · exact ha
      · exact hbefore x hx

theorem bestOf_cons_none (h : matchOf routeDirect cidrs a = none) (best : Option (Route × Nat)) :
    bestOf routeDirect cidrs (a :: ips) best = bestOf routeDirect cidrs ips best := by
  rw [bestOf]
  unfold matchOf at h
  split at h
  · cases h
  · rename_i hl
    rw [hl]

theorem bestOf_cons_some (h : matchOf routeDirect cidrs a = some (route, bits))
    (best : Option (Route × Nat)) : bestOf routeDirect cidrs (a :: ips) best =
      bestOf routeDirect cidrs ips
        (if ∀ b ∈ best, b.2 < bits then some (route, bits) else best) := by
  rw [bestOf]
  unfold matchOf at h
  split at h
  · rename_i hl
    cases h
    rw [hl]
    cases best with
    | none => simp
    | some b =>
      by_cases hb : b.2 < bits <;> simp [hb]
  · cases h

/-- The loop ends with the first longest match, counting the one it came with first. -/
theorem bestOf_some_iff (best : Option (Route × Nat)) :
    bestOf routeDirect cidrs ips best = some (route, bits) ↔
      (best = some (route, bits) ∧ ∀ b ∈ ips, ∀ m ∈ matchOf routeDirect cidrs b, m.2 ≤ bits) ∨
        (FirstLongest (matchOf routeDirect cidrs) ips route bits ∧ ∀ m ∈ best, m.2 < bits) := by
  induction ips generalizing best with
  | nil =>
    simp only [bestOf, List.not_mem_nil, false_implies, implies_true, and_true, FirstLongest]
    simp
  | cons a ips ih =>
    rw [firstLongest_cons]
    cases hm : matchOf routeDirect cidrs a with
    | none =>
      rw [bestOf_cons_none hm, ih]
      simp [hm]
    | some p =>
      obtain ⟨r, n⟩ := p
      rw [bestOf_cons_some hm, ih]
      by_cases hbest : ∀ b ∈ best, b.2 < n
      · rw [if_pos hbest]
        simp only [List.mem_cons, forall_eq_or_imp, hm, Option.mem_some_iff, forall_eq']
        constructor
        · rintro (⟨he, hle⟩ | ⟨hf, hlt⟩)
          · refine Or.inr ⟨Or.inl ⟨he, ?_⟩, ?_⟩
            · cases he
              exact hle
            · cases he
              exact hbest
          · exact Or.inr ⟨Or.inr ⟨hf, hlt⟩, fun b hb => Nat.lt_trans (hbest b hb) hlt⟩
        · rintro (⟨he, hle, -⟩ | ⟨⟨he, hle⟩ | ⟨hf, hlt⟩, -⟩)
          · have hlt := hbest (route, bits) he
            omega
          · exact Or.inl ⟨he, hle⟩
          · exact Or.inr ⟨hf, hlt⟩
      · rw [if_neg hbest]
        simp only [List.mem_cons, forall_eq_or_imp, hm, Option.mem_some_iff, forall_eq']
        obtain ⟨b, hb, hn⟩ : ∃ b ∈ best, n ≤ b.2 := by
          by_contra hno
          exact hbest fun b hb => Nat.lt_of_not_le fun hle => hno ⟨b, hb, hle⟩
        constructor
        · rintro (⟨he, hle⟩ | ⟨hf, hlt⟩)
          · refine Or.inl ⟨he, ?_, hle⟩
            rw [he, Option.mem_some_iff] at hb
            subst hb
            exact hn
          · exact Or.inr ⟨Or.inr ⟨hf, Nat.lt_of_le_of_lt hn (hlt b hb)⟩, hlt⟩
        · rintro (⟨he, -, hle⟩ | ⟨⟨he, -⟩ | ⟨hf, -⟩, hlt⟩)
          · exact Or.inl ⟨he, hle⟩
          · have hlt := hlt b hb
            cases he
            omega
          · exact Or.inr ⟨hf, hlt⟩

theorem bestOf_none_iff (best : Option (Route × Nat)) : bestOf routeDirect cidrs ips best = none ↔
    best = none ∧ ∀ a ∈ ips, matchOf routeDirect cidrs a = none := by
  induction ips generalizing best with
  | nil => simp [bestOf]
  | cons a ips ih =>
    cases hm : matchOf routeDirect cidrs a with
    | none =>
      rw [bestOf_cons_none hm, ih]
      simp [hm]
    | some p =>
      rw [bestOf_cons_some hm, ih]
      by_cases hbest : ∀ b ∈ best, b.2 < p.2
      · rw [if_pos hbest]
        simp [hm]
      · rw [if_neg hbest]
        simp only [List.mem_cons, forall_eq_or_imp, hm, reduceCtorEq, false_and, and_false, iff_false,
          not_and]
        rintro rfl
        exact absurd (by simp) hbest

/-! ## A name without a rule of its own -/

/-- The host is no address to the route and to the dialer, and no domain rule matches. -/
structure RulelessName (cache : RouteCache) (host : Bytes) (port : Nat) (name : Bytes) : Prop where
  routed : routeName host = some name
  noAddress : parseAddr name = none
  noDialed : ∀ h q, splitHostPort (joinHostPort host (itoa port)) = some (h, q) →
    parseAddr (trimSpace h) = none
  noDomain : cache.domains name = none
  noWildcard : lookupWildcard cache.wildcardDomains name = none

/-- The dialer finds a name in the host. -/
def Dialed (host : Bytes) (port : Nat) : Prop :=
  ∃ h q, splitHostPort (joinHostPort host (itoa port)) = some (h, q) ∧ trimSpace h ≠ []

/-- The longest match says direct, and an address the dialer may use goes elsewhere. -/
def Mixed (routeDirect : Route) (cache : RouteCache) (ips : List Addr) : Prop :=
  (∃ bits, FirstLongest (matchOf routeDirect cache.cidrs) ips routeDirect bits) ∧
    ∃ a ∈ ips, validateDirectTargetIP a.unmap = none ∧ readable a.unmap = true ∧
      ownRoute routeDirect cache a ≠ routeDirect

variable {host name : Bytes} {port : Nat}

theorem ownRoute_unmap (routeDirect : Route) (cache : RouteCache) (a : Addr) :
    ownRoute routeDirect cache a.unmap = ownRoute routeDirect cache a := by
  rw [ownRoute, matchOf_unmap, ownRoute]

/-- The name goes where the best of its addresses goes, or to the default. -/
theorem ruleless_route (h : RulelessName cache host port name) (answer : Option (List Addr)) :
    resolveRoute routeDirect (fun _ => answer) (some cache) host =
      ((answer.bind fun ips => bestOf routeDirect cache.cidrs ips none).map Prod.fst).getD
        cache.defaultRoute := by
  rw [resolveRoute_routeName, h.routed]
  simp only [routeFor, h.noDomain, h.noWildcard, h.noAddress, resolveCIDRRoute]
  cases answer with
  | none => rfl
  | some ips =>
    simp only [Option.bind_some]
    cases bestOf routeDirect cache.cidrs ips none <;> rfl

/-- A connection is open to an address of the answer. -/
theorem ruleless_dial (h : RulelessName cache host port name) {net : Network}
    {answer : Option (List Addr)} {conn ip : Addr}
    (hd : dialDirectTarget net (fun _ => answer) (joinHostPort host (itoa port)) = .ok (conn, ip)) :
    Dialed host port ∧ ∃ ips ∈ answer, ∃ a ∈ ips, a.unmap = conn ∧
      validateDirectTargetIP conn = none ∧ readable conn = true := by
  obtain ⟨x, q, hs, hm, hr, -⟩ := dialDirectTarget_ok hd
  have hx : trimSpace x ≠ [] := by
    intro he
    rw [named, if_pos he] at hm
    exact absurd hm List.not_mem_nil
  refine ⟨⟨x, q, hs, hx⟩, ?_⟩
  simp only [named, if_neg hx, h.noDialed x q hs] at hm
  obtain ⟨⟨a, ha, rfl⟩, hv⟩ := mem_allowed.mp hm
  cases answer with
  | none => exact absurd ha List.not_mem_nil
  | some ips => exact ⟨ips, rfl, a, ha, rfl, hv, hr⟩

/-- Every address of the answer that the policy lets through may be the one. -/
theorem ruleless_reaches (h : RulelessName cache host port name) (hd : Dialed host port)
    {ips : List Addr} {a : Addr} (ha : a ∈ ips) (hv : validateDirectTargetIP a.unmap = none)
    (hr : readable a.unmap = true) : ∃ net,
      dialDirectTarget net (fun _ => some ips) (joinHostPort host (itoa port)) =
        .ok (a.unmap, a.unmap) := by
  obtain ⟨x, q, hs, hx⟩ := hd
  refine ⟨⟨fun _ => some port, fun _ => [], fun b _ => b = a.unmap⟩,
    dialDirectTarget_reaches hs rfl ?_ hr⟩
  simp only [named, if_neg hx, h.noDialed x q hs]
  exact mem_allowed.mpr ⟨⟨a, ha, rfl⟩, hv⟩

/-- A name that is routed direct is connected to addresses whose own route is direct,
unless its answer is mixed. -/
theorem direct_addresses_iff (h : RulelessName cache host port name) (answer : Option (List Addr)) :
    (resolveRoute routeDirect (fun _ => answer) (some cache) host = routeDirect →
      ∀ net conn ip, dialDirectTarget net (fun _ => answer) (joinHostPort host (itoa port)) =
        .ok (conn, ip) → ownRoute routeDirect cache conn = routeDirect) ↔
    (Dialed host port → ∀ ips ∈ answer, ¬Mixed routeDirect cache ips) := by
  rw [ruleless_route h]
  constructor
  · rintro hown hd ips rfl ⟨⟨bits, hf⟩, a, ha, hv, hr, hne⟩
    have hbest : bestOf routeDirect cache.cidrs ips none = some (routeDirect, bits) :=
      (bestOf_some_iff none).mpr (Or.inr ⟨hf, by simp⟩)
    obtain ⟨net, hnet⟩ := ruleless_reaches h hd ha hv hr
    rw [← ownRoute_unmap] at hne
    exact hne (hown (by simp [hbest]) net _ _ hnet)
  · intro hmixed hroute net conn ip hdial
    obtain ⟨hd, ips, rfl, a, ha, rfl, hv, hr⟩ := ruleless_dial h hdial
    rw [Option.bind_some] at hroute
    cases hb : bestOf routeDirect cache.cidrs ips none with
    | none =>
      -- nothing matches, so all of them go to the default
      rw [hb] at hroute
      rw [ownRoute_unmap, ownRoute, ((bestOf_none_iff none).mp hb).2 a ha]
      exact hroute
    | some p =>
      obtain ⟨route, bits⟩ := p
      rw [hb] at hroute
      obtain rfl : route = routeDirect := hroute
      have hf := ((bestOf_some_iff none).mp hb).resolve_left (by simp)
      by_contra hne
      rw [ownRoute_unmap] at hne
      exact hmixed hd ips rfl ⟨⟨bits, hf.1⟩, a, ha, hv, hr, hne⟩

/-- `8.8.8.0/24` goes direct, the rest to a group. -/
def splitCache : RouteCache :=
  ⟨fun _ => none, .nil, loadCIDRs [(prefixFrom (.v4 0x08080800) 24, ascii "direct")], ascii "group"⟩

theorem comName_ruleless : RulelessName splitCache comName 443 comName where
  routed := by decide +kernel
  noAddress := by decide +kernel
  noDialed h q hs := by
    have hjoin : splitHostPort (joinHostPort comName (itoa 443)) = some (comName, itoa 443) := by
      decide +kernel
    rw [hjoin] at hs
    cases hs
    decide +kernel
  noDomain := rfl
  noWildcard := by decide +kernel

/-- A name with one address, within the rule, is connected to that address. -/
theorem one_address_direct : Dialed comName 443 ∧
    (resolveRoute (ascii "direct") (fun _ => some [.v4 0x08080808]) (some splitCache) comName =
        ascii "direct" →
      ∀ net conn ip, dialDirectTarget net (fun _ => some [.v4 0x08080808])
        (joinHostPort comName (itoa 443)) = .ok (conn, ip) →
        ownRoute (ascii "direct") splitCache conn = ascii "direct") := by
  refine ⟨⟨comName, itoa 443, by decide +kernel, by decide +kernel⟩,
    (direct_addresses_iff comName_ruleless (some [.v4 0x08080808])).mpr fun _ ips hips => ?_⟩
  cases hips
  rintro ⟨-, a, ha, -, -, hne⟩
  rw [List.mem_singleton.mp ha] at hne
  exact hne (by decide +kernel)

/-- `a.com` is `8.8.8.8` and `1.1.1.1`: the first makes it direct, the second is dialed. -/
theorem group_address_dialed : RulelessName splitCache comName 443 comName ∧
    resolveRoute (ascii "direct") (fun _ => some [.v4 0x08080808, .v4 0x01010101])
      (some splitCache) comName = ascii "direct" ∧
    (∃ net, dialDirectTarget net (fun _ => some [.v4 0x08080808, .v4 0x01010101])
      (joinHostPort comName (itoa 443)) = .ok (.v4 0x01010101, .v4 0x01010101)) ∧
    ownRoute (ascii "direct") splitCache (.v4 0x01010101) = ascii "group" :=
  ⟨comName_ruleless, by decide +kernel,
    ruleless_reaches (a := .v4 0x01010101) comName_ruleless ⟨comName, itoa 443, by decide +kernel,
      by decide +kernel⟩ (by simp) (by decide +kernel) (by decide +kernel), by decide +kernel⟩

end SplitProxy.Direct
