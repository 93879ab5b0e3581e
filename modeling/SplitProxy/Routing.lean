import SplitProxy.NetIPParse
import SplitProxy.RouteTries

/-!
# Choosing a route

`ResolveRoute` brings a target's name into one spelling and asks, in turn, the
exact domain rules, the wildcard rules, the CIDR rules for an address, the CIDR
rules for the addresses a name resolves to, and the default.
-/
namespace SplitProxy.Routing

open GoText NetIP

structure RouteCache where
  domains : Bytes → Option Route
  wildcardDomains : DomainTrie
  cidrs : CIDRTrie
  defaultRoute : Route

/-- `DNSCache.lookup`: the addresses of a name, none when it does not resolve. -/
abbrev Answers := Bytes → Option (List Addr)

/-- The loop of `resolveCIDRRoute`: a later address wins only with a longer prefix. -/
def bestOf (routeDirect : Route) (cidrs : CIDRTrie) : List Addr → Option (Route × Nat) →
    Option (Route × Nat)
  | [], best => best
  | a :: as, best =>
    match cidrs.lookup routeDirect a with
    | (_, _, false) => bestOf routeDirect cidrs as best
    | (route, bits, true) =>
      match best with
      | none => bestOf routeDirect cidrs as (some (route, bits))
      | some b => bestOf routeDirect cidrs as (if b.2 < bits then some (route, bits) else some b)

def resolveCIDRRoute (routeDirect : Route) (dns : Answers) (cache : RouteCache) (host : Bytes) :
    Option Route :=
  match dns host with
  | none => none
  | some ips => (bestOf routeDirect cache.cidrs ips none).map Prod.fst

/-- The part of `ResolveRoute` after the name has been brought into its spelling. -/
def routeFor (routeDirect : Route) (dns : Answers) (cache : RouteCache) (host : Bytes) : Route :=
  match cache.domains host with
  | some route => route
  | none =>
    match lookupWildcard cache.wildcardDomains host with
    | some route => route
    | none =>
      match parseAddr host with
      | some addr =>
        match cache.cidrs.lookup routeDirect addr with
        | (route, _, true) => route
        | (_, _, false) => cache.defaultRoute
      | none =>
        match resolveCIDRRoute routeDirect dns cache host with
        | some route => route
        | none => cache.defaultRoute

/-- The host of a host and port, or the text itself when it is none. -/
def withoutPort (host : Bytes) : Bytes :=
  match splitHostPort host with
  | some (h, _) => h
  | none => host

/-- `ResolveRoute`; `routes` is none until the first `loadRoutes`. -/
def resolveRoute (routeDirect : Route) (dns : Answers) (routes : Option RouteCache)
    (host : Bytes) : Route :=
  let host := trimSuffix (withoutPort (toLower (trimSpace host))) [dot]
  if host = [] then routeDirect
  else
    let host := trimSuffix host [dot]
    match routes with
    | none => routeDirect
    | some cache => routeFor routeDirect dns cache host

/-! ## Destinations and their spellings -/

/-- A byte of a host name in any case. -/
def IsNameByte (b : UInt8) : Prop :=
  b.toNat < 0x80 ∧ [b] ∉ spaces ∧ b ≠ colon ∧ b ≠ openBracket ∧ b ≠ closeBracket

instance (b : UInt8) : Decidable (IsNameByte b) := inferInstanceAs (Decidable (_ ∧ _))

/-- A lower-case ASCII name of non-empty labels. -/
structure HostName (d : Bytes) : Prop where
  bytes : ∀ b ∈ d, IsNameByte b ∧ lowerByte b = b
  labels : [] ∉ labels d

/-- The text of a port: ASCII, and none of blanks, colons and brackets. -/
def Port (p : Bytes) : Prop := ∀ b ∈ p, IsNameByte b

/-- The spellings of a destination, before white space is put around: letters
change case, names and IPv4 addresses may get a dot, and a port may follow. -/
inductive Spelled (d : Bytes) : Bytes → Prop
  | plain {t : Bytes} : t.map lowerByte = d.map lowerByte → Spelled d t
  | dotted {t : Bytes} : t.map lowerByte = d.map lowerByte → colon ∉ d → Spelled d (t ++ [dot])
  | port {t p : Bytes} : t.map lowerByte = d.map lowerByte → colon ∉ d → Port p →
      Spelled d (t ++ colon :: p)
  | dottedPort {t p : Bytes} : t.map lowerByte = d.map lowerByte → colon ∉ d → Port p →
      Spelled d (t ++ dot :: colon :: p)
  | bracketed {t p : Bytes} : t.map lowerByte = d.map lowerByte → colon ∈ d → Port p →
      Spelled d (openBracket :: t ++ closeBracket :: colon :: p)

/-- `s` is a spelling of `d` with white space around. -/
def Spelling (d s : Bytes) : Prop :=
  ∃ x y core, Blank x ∧ Blank y ∧ Spelled d core ∧ s = x ++ core ++ y

theorem spelling_self (d : Bytes) : Spelling d d :=
  ⟨[], [], d, ⟨[], by simp, rfl⟩, ⟨[], by simp, rfl⟩, .plain rfl, by simp⟩

/-! ## One spelling for all -/

theorem isNameByte_lowerByte (b : UInt8) : IsNameByte (lowerByte b) ↔ IsNameByte b := by
  by_cases hb : b.toNat < 0x80
  · have hl : (lowerByte b).toNat < 0x80 := by
      rw [toNat_lowerByte]
      exact lowerASCII_lt hb
    have hcolon : lowerByte b = colon ↔ b = colon := lowerByte_eq_iff (by decide)
    have hopen : lowerByte b = openBracket ↔ b = openBracket := lowerByte_eq_iff (by decide)
    have hclose : lowerByte b = closeBracket ↔ b = closeBracket := lowerByte_eq_iff (by decide)
    simp only [IsNameByte, hl, hb, not_space_lowerByte hb, ne_eq, hcolon, hopen, hclose]
  · rw [lowerByte_of_ge (Nat.le_of_not_lt hb)]

theorem isNameByte_map {s : Bytes} :
    (∀ b ∈ s.map lowerByte, IsNameByte b) ↔ ∀ b ∈ s, IsNameByte b := by
  constructor
  · intro h b hb
    exact (isNameByte_lowerByte b).mp (h _ (List.mem_map_of_mem hb))
  · intro h b hb
    obtain ⟨c, hc, rfl⟩ := List.mem_map.mp hb
    exact (isNameByte_lowerByte c).mpr (h c hc)

theorem portText_of_port {p : Bytes} (h : Port p) : PortText p := fun b hb => (h b hb).2.2

theorem map_lowerByte_dot : lowerByte dot = dot := by decide
theorem map_lowerByte_colon : lowerByte colon = colon := by decide

theorem getLast_of_labels {s : Bytes} (h : [] ∉ labels s) : s.getLast? ≠ some dot := by
  intro hl
  obtain ⟨x, rfl⟩ := List.getLast?_eq_some_iff.mp hl
  apply h
  rw [labels, List.splitOn_append_cons_self, List.splitOn_nil]
  simp

/-- What a text becomes when it is trimmed, lower-cased and rid of its port and dot. -/
theorem resolveRoute_of_host {routeDirect : Route} {dns : Answers} {cache : RouteCache}
    {s host h : Bytes} (hs : withoutPort (toLower (trimSpace s)) = host)
    (hh : host = h ∨ host = h ++ [dot]) (hne : h ≠ []) (hlast : h.getLast? ≠ some dot) :
    resolveRoute routeDirect dns (some cache) s = routeFor routeDirect dns cache h := by
  have htrim : trimSuffix host [dot] = h := by
    rcases hh with rfl | rfl
    · exact trimSuffix_of_not hlast
    · exact trimSuffix_append h [dot]
  simp only [resolveRoute, hs, htrim, hne, ↓reduceIte, trimSuffix_of_not hlast]

theorem withoutPort_none {s : Bytes} (h : splitHostPort s = none) : withoutPort s = s := by
  rw [withoutPort, h]

theorem withoutPort_no_colon {h : Bytes} (hc : colon ∉ h) : withoutPort h = h := by
  rw [withoutPort, splitHostPort_no_colon hc]

theorem withoutPort_plain {h p : Bytes} (hp : PortText p) (hh : PortText h) :
    withoutPort (h ++ colon :: p) = h := by
  rw [withoutPort, splitHostPort_plain hp hh]

theorem lower_port {p : Bytes} (hp : Port p) : PortText (p.map lowerByte) :=
  portText_of_port (isNameByte_map.mpr hp)

theorem dot_isNameByte : IsNameByte dot := by decide

/-- A name or an IPv4 address, however spelled, is looked up in lower case. -/
theorem resolveRoute_plain {routeDirect : Route} {dns : Answers} {cache : RouteCache}
    {d s : Bytes} (hne : d ≠ []) (hcolon : colon ∉ d) (hbytes : ∀ b ∈ d, IsNameByte b)
    (hlast : d.getLast? ≠ some dot) (hs : Spelling d s) :
    resolveRoute routeDirect dns (some cache) s = routeFor routeDirect dns cache (toLower d) := by
  obtain ⟨x, y, core, hx, hy, hcore, rfl⟩ := hs
  have hd : toLower d = d.map lowerByte := toLower_ascii (fun b hb => (hbytes b hb).1)
  have hlow : ∀ b ∈ toLower d, IsNameByte b := by
    rw [hd]
    exact isNameByte_map.mpr hbytes
  have hlowne : toLower d ≠ [] := toLower_ne_nil hne
  have hlowlast : (toLower d).getLast? ≠ some dot := fun h =>
    hlast (getLast_toLower (by decide) h)
  have hplain : ∀ t : Bytes, t.map lowerByte = d.map lowerByte →
      t ≠ [] ∧ (∀ b ∈ t, IsNameByte b) ∧ t.map lowerByte = toLower d := by
    intro t ht
    refine ⟨?_, ?_, by rw [hd, ht]⟩
    · rintro rfl
      exact hne (List.map_eq_nil_iff.mp ht.symm)
    · rw [← isNameByte_map, ht]
      exact isNameByte_map.mpr hbytes
  have htrim : ∀ {c : Bytes}, c ≠ [] → (∀ b ∈ c, b.toNat < 0x80 ∧ [b] ∉ spaces) →
      toLower (trimSpace (x ++ c ++ y)) = c.map lowerByte := by
    intro c hc hb
    rw [trimSpace_ascii hx hy hc hb, toLower_ascii (fun b hbc => (hb b hbc).1)]
  have hblank : ∀ {b : UInt8}, IsNameByte b → b.toNat < 0x80 ∧ [b] ∉ spaces :=
    fun h => ⟨h.1, h.2.1⟩
  have hcolonBlank : colon.toNat < 0x80 ∧ [colon] ∉ spaces := by decide
  cases hcore with
  | plain ht =>
    obtain ⟨htne, htb, htl⟩ := hplain _ ht
    refine resolveRoute_of_host ?_ (Or.inl rfl) hlowne hlowlast
    rw [htrim htne (fun b hb => hblank (htb b hb)), htl]
    exact withoutPort_no_colon (portText_of_port hlow).colon
  | dotted ht _ =>
    obtain ⟨htne, htb, htl⟩ := hplain _ ht
    refine resolveRoute_of_host ?_ (Or.inr rfl) hlowne hlowlast
    rw [htrim (by simp), List.map_append, htl]
    · refine withoutPort_no_colon ?_
      simp only [List.mem_append, not_or]
      exact ⟨(portText_of_port hlow).colon, by decide⟩
    · intro b hb
      rcases List.mem_append.mp hb with hb | hb
      · exact hblank (htb b hb)
      · rw [List.mem_singleton.mp hb]
        decide
  | port ht _ hp =>
    obtain ⟨htne, htb, htl⟩ := hplain _ ht
    refine resolveRoute_of_host ?_ (Or.inl rfl) hlowne hlowlast
    rw [htrim (by simp), List.map_append, List.map_cons, htl, map_lowerByte_colon]
    · exact withoutPort_plain (lower_port hp) (portText_of_port hlow)
    · intro b hb
      simp only [List.mem_append, List.mem_cons] at hb
      rcases hb with hb | rfl | hb
      · exact hblank (htb b hb)
      · exact hcolonBlank
      · exact hblank (hp b hb)
  | dottedPort ht _ hp =>
    obtain ⟨htne, htb, htl⟩ := hplain _ ht
    refine resolveRoute_of_host ?_ (Or.inr rfl) hlowne hlowlast
    rw [htrim (by simp), List.map_append, List.map_cons, List.map_cons, htl, map_lowerByte_colon,
      map_lowerByte_dot, List.append_cons]
    · refine withoutPort_plain (lower_port hp) (portText_of_port ?_)
      intro b hb
      rcases List.mem_append.mp hb with hb | hb
      · exact hlow b hb
      · rw [List.mem_singleton.mp hb]
        exact dot_isNameByte
    · intro b hb
      simp only [List.mem_append, List.mem_cons] at hb
      rcases hb with hb | rfl | rfl | hb
      · exact hblank (htb b hb)
      · decide
      · exact hcolonBlank
      · exact hblank (hp b hb)
  | bracketed _ hc _ => exact absurd hc hcolon

/-- The rule chosen from a name's addresses: no address has a longer match, and
the addresses before the one it comes from have only shorter ones. -/
structure ChosenFrom (rules : List (Prefix × Route)) (ips : List Addr) (route : Route)
    (bits : Nat) : Prop where
  first : ∃ before a after, ips = before ++ a :: after ∧ LongestMatch rules a.unmap route bits ∧
    ∀ b ∈ before, ∀ r n, LongestMatch rules b.unmap r n → n < bits
  longest : ∀ a ∈ ips, ∀ r n, LongestMatch rules a.unmap r n → n ≤ bits

theorem longestMatch_unique {rules : List (Prefix × Route)} {a : Addr} {r r' : Route} {n n' : Nat}
    (h : LongestMatch (normalized rules) a.unmap r n)
    (h' : LongestMatch (normalized rules) a.unmap r' n') : r = r' ∧ n = n' := by
  have he := (lookup_some_iff [] rules a r n).mpr h
  rw [(lookup_some_iff [] rules a r' n').mpr h'] at he
  cases he
  exact ⟨rfl, rfl⟩

theorem ChosenFrom.cons {rules : List (Prefix × Route)} {ips : List Addr} {route : Route}
    {bits : Nat} (h : ChosenFrom rules ips route bits) {a : Addr}
    (ha : ∀ r n, LongestMatch rules a.unmap r n → n < bits) :
    ChosenFrom rules (a :: ips) route bits := by
  obtain ⟨⟨before, b, after, rfl, hb, hbefore⟩, hlongest⟩ := h
  refine ⟨⟨a :: before, b, after, rfl, hb, fun x hx => ?_⟩, fun x hx r n hm => ?_⟩
  · rcases List.mem_cons.mp hx with rfl | hx
    · exact ha
    · exact hbefore x hx
  · rcases List.mem_cons.mp hx with rfl | hx
    · exact Nat.le_of_lt (ha r n hm)
    · exact hlongest x hx r n hm

/-- The loop ends with a match better than the one it came with, or keeps that one. -/
theorem bestOf_spec {routeDirect : Route} {rules : List (Prefix × Route)} (ips : List Addr)
    (best : Option (Route × Nat)) :
    (∃ route bits, ChosenFrom (normalized rules) ips route bits ∧ (∀ b ∈ best, b.2 < bits) ∧
      bestOf routeDirect (loadCIDRs rules) ips best = some (route, bits)) ∨
    (bestOf routeDirect (loadCIDRs rules) ips best = best ∧
      ∀ a ∈ ips, ∀ r n, LongestMatch (normalized rules) a.unmap r n → ∃ b ∈ best, n ≤ b.2) := by
  induction ips generalizing best with
  | nil => exact Or.inr ⟨rfl, by simp⟩
  | cons a ips ih =>
    rcases hl : (loadCIDRs rules).lookup routeDirect a with ⟨route, bits, found⟩
    cases found with
    | false =>
      have hno : ∀ r n, ¬LongestMatch (normalized rules) a.unmap r n := by
        intro r n hm
        have := (lookup_some_iff routeDirect rules a r n).mpr hm
        rw [hl] at this
        cases this
      have hstep : bestOf routeDirect (loadCIDRs rules) (a :: ips) best =
          bestOf routeDirect (loadCIDRs rules) ips best := by rw [bestOf, hl]
      rw [hstep]
      rcases ih best with ⟨r, n, hc, hb, he⟩ | ⟨he, hall⟩
      · exact Or.inl ⟨r, n, hc.cons (fun r' n' hm => absurd hm (hno r' n')), hb, he⟩
      · refine Or.inr ⟨he, fun x hx r n hm => ?_⟩
        rcases List.mem_cons.mp hx with rfl | hx
        · exact absurd hm (hno r n)
        · exact hall x hx r n hm
    | true =>
      have hm := (lookup_some_iff routeDirect rules a route bits).mp hl
      have hone : ∀ r n, LongestMatch (normalized rules) a.unmap r n → n = bits := fun r n h =>
        (longestMatch_unique h hm).2
      by_cases hbetter : ∀ b ∈ best, b.2 < bits
      · have hstep : bestOf routeDirect (loadCIDRs rules) (a :: ips) best =
            bestOf routeDirect (loadCIDRs rules) ips (some (route, bits)) := by
          rw [bestOf, hl]
          cases best with
          | none => rfl
          | some b => simp only [if_pos (hbetter b rfl)]
        rw [hstep]
        rcases ih (some (route, bits)) with ⟨r, n, hc, hb, he⟩ | ⟨he, hall⟩
        · have hlt : bits < n := hb _ rfl
          refine Or.inl ⟨r, n, hc.cons (fun r' n' h => ?_), fun b hb => ?_, he⟩
          · rw [hone r' n' h]
            exact hlt
          · exact Nat.lt_trans (hbetter b hb) hlt
        · refine Or.inl ⟨route, bits, ⟨⟨[], a, ips, rfl, hm, by simp⟩, fun x hx r n h => ?_⟩,
            hbetter, he⟩
          rcases List.mem_cons.mp hx with rfl | hx
          · exact Nat.le_of_eq (hone r n h)
          · obtain ⟨b, hb, hle⟩ := hall x hx r n h
            cases hb
            exact hle
      · obtain ⟨b, rfl, hge⟩ : ∃ b, best = some b ∧ ¬b.2 < bits := by
          cases best with
          | none => exact absurd (by simp) hbetter
          | some b => exact ⟨b, rfl, fun h => hbetter (fun b' hb' => by cases hb'; exact h)⟩
        have hstep : bestOf routeDirect (loadCIDRs rules) (a :: ips) (some b) =
            bestOf routeDirect (loadCIDRs rules) ips (some b) := by
          rw [bestOf, hl]
          simp only [if_neg hge]
        rw [hstep]
        rcases ih (some b) with ⟨r, n, hc, hb, he⟩ | ⟨he, hall⟩
        · refine Or.inl ⟨r, n, hc.cons (fun r' n' h => ?_), hb, he⟩
          have hlt : b.2 < n := hb b rfl
          rw [hone r' n' h]
          omega
        · refine Or.inr ⟨he, fun x hx r n h => ?_⟩
          rcases List.mem_cons.mp hx with rfl | hx
          · refine ⟨b, rfl, ?_⟩
            rw [hone r n h]
            omega
          · exact hall x hx r n h

theorem bestOf_none {routeDirect : Route} {rules : List (Prefix × Route)} {ips : List Addr}
    (h : ∀ a ∈ ips, ∀ q ∈ normalized rules, ¬q.1.covers a.unmap) :
    bestOf routeDirect (loadCIDRs rules) ips none = none := by
  rcases @bestOf_spec routeDirect rules ips none with ⟨r, n, ⟨⟨before, a, after, he, ha, -⟩, -⟩, -⟩ |
    ⟨he, -⟩
  · obtain ⟨⟨_, p, _, hr, hc, -⟩, -⟩ := ha
    exact absurd hc (h a (by rw [he]; simp) (p, r) (by rw [hr]; simp))
  · exact he

/-- The rules a cache is loaded from, the wildcard and CIDR rules in the order of insertion. -/
structure Rules where
  domains : Bytes → Option Route
  wildcards : List (Bytes × Route)
  cidrs : List (Prefix × Route)
  defaultRoute : Route

def Rules.cache (rules : Rules) : RouteCache :=
  ⟨rules.domains, loadWildcards rules.wildcards, loadCIDRs rules.cidrs, rules.defaultRoute⟩

theorem routeFor_exact {routeDirect : Route} {dns : Answers} {cache : RouteCache} {h : Bytes}
    {route : Route} (hd : cache.domains h = some route) :
    routeFor routeDirect dns cache h = route := by
  rw [routeFor, hd]

/-- `b.a.com` -/
def below : Bytes := [0x62, 0x2E, 0x61, 0x2E, 0x63, 0x6F, 0x6D]

end SplitProxy.Routing
