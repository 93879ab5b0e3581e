import SplitProxy.DirectTarget
import SplitProxy.DNSCache
import SplitProxy.LoadRoutes
import SplitProxy.RuneText

/-!
# One host, two spellings

`ResolveRoute` and the direct dialer each bring a host into a spelling of their
own. The dialer's is the key of the DNS cache: brackets are gone, and blanks and
dots are taken off twice. Two hosts with one key are compared by the name they
are routed by.
-/
namespace SplitProxy.Direct

open GoText NetIP Routing DNSCache

/-- The key under which the dialer's lookup reads and writes the DNS cache, when it
makes one. -/
def dialKey (host : Bytes) (port : Nat) : Option Bytes :=
  match splitHostPort (joinHostPort host (itoa port)) with
  | none => none
  | some (h, _) =>
    let h := trimSpace h
    if h = [] ∨ (parseAddr h).isSome then none
    else
      -- `lookup` normalises the host, `get` and `set` the result
      let name := normalizeHost h
      if name = [] then none
      else
        let key := normalizeHost name
        if key = [] then none else some key

/-- The name a host is routed by, none for the direct route without a look. -/
def routeName (host : Bytes) : Option Bytes :=
  if spelledHost host = [] then none else some (trimSuffix (spelledHost host) [dot])

/-- Not in brackets, and a host and port or without a blank before its last dot. -/
def PlainSpelling (host : Bytes) : Prop :=
  openBracket ∉ host ∧
    (HasPort (toLower (trimSpace host)) ∨ trimSpace (normalizeHost host) = normalizeHost host)

instance (host : Bytes) : Decidable (PlainSpelling host) := inferInstanceAs (Decidable (_ ∧ _))

variable {host h₁ h₂ key u : Bytes} {port p₁ p₂ : Nat}

theorem dialKey_some (h : dialKey host port = some key) :
    ∃ h, openBracket ∉ h ∧ closeBracket ∉ h ∧
      (host = h ∨ colon ∉ h ∧ host = openBracket :: h ++ [closeBracket]) ∧
      normalizeHost (trimSpace h) ≠ [] ∧ normalizeHost (normalizeHost (trimSpace h)) = key := by
  unfold dialKey at h
  cases hs : splitHostPort (joinHostPort host (itoa port)) with
  | none =>
    rw [hs] at h
    cases h
  | some p =>
    obtain ⟨x, q⟩ := p
    obtain ⟨-, ho, hc, hx⟩ := (splitHostPort_join_iff (portText_itoa port)).mp hs
    rw [hs] at h
    simp only [Option.ite_none_left_eq_some, Option.some.injEq] at h
    exact ⟨x, ho, hc, hx, h.2.1, h.2.2.2⟩

/-- The dialer resolves a name, and what the cache holds for it is under the key. -/
theorem dialer_asks (h : dialKey host port = some key) : ∃ name, parseAddr name = none ∧
    (∀ answers, resolveDirectTarget answers (joinHostPort host (itoa port)) =
      resolveHost answers .emptyHost name) ∧
    ∀ now entries, get now entries (normalizeHost name) =
      (entries.lookup key).bind fun entry =>
        if now < entry.expiresAt then some (entry.ips, entry.ok) else none := by
  unfold dialKey at h
  cases hs : splitHostPort (joinHostPort host (itoa port)) with
  | none =>
    rw [hs] at h
    cases h
  | some p =>
    obtain ⟨x, q⟩ := p
    rw [hs] at h
    simp only [Option.ite_none_left_eq_some, Option.some.injEq, not_or, Bool.not_eq_true,
      Option.isSome_eq_false_iff, Option.isNone_iff_eq_none] at h
    obtain ⟨⟨-, hparse⟩, -, hne, hkey⟩ := h
    refine ⟨trimSpace x, hparse, fun answers => by rw [resolveDirectTarget, hs], fun now entries => ?_⟩
    have hkn : key ≠ [] := hkey ▸ hne
    simp only [DNSCache.get, hkey, hkn, ↓reduceIte]
    cases entries.lookup key <;> rfl

/-! ## What decides the route -/

theorem resolveRoute_routeName (direct : Route) (dns : Answers) (cache : RouteCache) (host : Bytes) :
    resolveRoute direct dns (some cache) host =
      match routeName host with
      | none => direct
      | some name => routeFor direct dns cache name := by
  by_cases hs : spelledHost host = []
  · rw [routeName, if_pos hs]
    exact if_pos hs
  · rw [routeName, if_neg hs]
    exact if_neg hs

/-- Two hosts are routed alike by every cache when they have one name. -/
theorem routed_alike_iff : (∀ direct dns cache, resolveRoute direct dns cache h₁ =
    resolveRoute direct dns cache h₂) ↔ routeName h₁ = routeName h₂ := by
  have hnone : ∀ (direct : Route) (dns : Answers) (host : Bytes),
      resolveRoute direct dns none host = direct := by
    intro direct dns host
    unfold resolveRoute
    simp
  constructor
  · intro h
    by_contra hne
    -- a rule for one of the two names alone
    have hexact : ∀ name : Bytes, ∀ a b : Bytes, routeName a = some name → routeName b ≠ some name →
        resolveRoute [] (fun _ => none)
            (some ⟨fun n => if n = name then some [0x61] else some [0x62], .nil, .empty, []⟩) a ≠
          resolveRoute [] (fun _ => none)
            (some ⟨fun n => if n = name then some [0x61] else some [0x62], .nil, .empty, []⟩) b := by
      intro name a b ha hb
      rw [resolveRoute_routeName, resolveRoute_routeName, ha]
      cases hn : routeName b with
      | none => simp [routeFor]
      | some n =>
        have hne : n ≠ name := fun he => hb (by rw [hn, he])
        simp [routeFor, hne]
    cases h1 : routeName h₁ with
    | some name => exact hexact name h₁ h₂ h1 (fun h2 => hne (h1.trans h2.symm)) (h _ _ _)
    | none =>
      cases h2 : routeName h₂ with
      | none => exact hne (h1.trans h2.symm)
      | some name => exact hexact name h₂ h₁ h2 (fun h1' => hne (h1'.trans h2.symm)) (h _ _ _).symm
  · intro h direct dns cache
    cases cache with
    | none => rw [hnone, hnone]
    | some cache => rw [resolveRoute_routeName, resolveRoute_routeName, h]

/-! ## From the key back to the spelling -/

theorem trimSuffix_cases (s : Bytes) :
    trimSuffix s [dot] = s ∧ s.getLast? ≠ some dot ∨ s = trimSuffix s [dot] ++ [dot] := by
  by_cases hl : s.getLast? = some dot
  · obtain ⟨y, rfl⟩ := List.getLast?_eq_some_iff.mp hl
    exact Or.inr (by rw [trimSuffix_append])
  · exact Or.inl ⟨trimSuffix_of_not hl, hl⟩

theorem lower_trimSuffix (h : toLower u = u) : toLower (trimSuffix u [dot]) = trimSuffix u [dot] := by
  rcases trimSuffix_cases u with ⟨he, -⟩ | he
  · rw [he, h]
  · rw [he, toLower_append_cons (by decide), toLower_nil, map_lowerByte_dot] at h
    exact List.append_cancel_right h

theorem spaces_noMark : ∀ w ∈ spaces, dot ∉ w ∧ colon ∉ w := by decide

theorem colon_not_mem_dot (s : Bytes) : ∃ tail, s = trimSuffix s [dot] ++ tail ∧ colon ∉ tail := by
  rcases trimSuffix_cases s with ⟨he, -⟩ | he
  · exact ⟨[], by rw [he, List.append_nil], List.not_mem_nil⟩
  · exact ⟨[dot], he, by decide⟩

theorem not_mem_blank {ws : List Bytes} (hws : ∀ w ∈ ws, w ∈ spaces) :
    dot ∉ ws.flatten ∧ colon ∉ ws.flatten := by
  constructor
  · intro h
    obtain ⟨w, hw, hb⟩ := List.mem_flatten.mp h
    exact (spaces_noMark w (hws w hw)).1 hb
  · intro h
    obtain ⟨w, hw, hb⟩ := List.mem_flatten.mp h
    exact (spaces_noMark w (hws w hw)).2 hb

/-- What the second normalising leaves of a text after the first: a beginning of it,
without the blanks and the dot that come to light behind the first dot. -/
theorem normalize_again (hlow : toLower u = u) (htrim : trimSpace u = u) :
    normalizeHost (trimSuffix u [dot]) = trimSuffix (trimSpace (trimSuffix u [dot])) [dot] ∧
    (∃ tail, u = normalizeHost (trimSuffix u [dot]) ++ tail ∧ colon ∉ tail) ∧
    (trimSpace (trimSuffix u [dot]) ≠ trimSuffix u [dot] → u = trimSuffix u [dot] ++ [dot] ∧
      trimSuffix (trimSuffix u [dot]) [dot] = trimSuffix u [dot] ∧
      (normalizeHost (trimSuffix u [dot])).length < (trimSuffix u [dot]).length) := by
  have hbegun : ∀ w ∈ spaces, ¬w <+: trimSuffix u [dot] := by
    intro w hw hp
    have hu := trimSpace_begun u w hw
    rw [htrim] at hu
    exact hu (hp.trans (trimSuffix_begins u [dot]))
  obtain ⟨ws, hws, hy⟩ := trimSpace_right hbegun
  obtain ⟨hdot, hcolon⟩ := not_mem_blank hws
  have hz : toLower (trimSpace (trimSuffix u [dot])) = trimSpace (trimSuffix u [dot]) := by
    refine lower_of_blank hws ?_
    rw [← hy]
    exact lower_trimSuffix hlow
  have hnorm : normalizeHost (trimSuffix u [dot]) = trimSuffix (trimSpace (trimSuffix u [dot])) [dot] := by
    rw [normalizeHost, hz]
  refine ⟨hnorm, ?_, fun hne => ?_⟩
  · obtain ⟨t₁, h₁, hc₁⟩ := colon_not_mem_dot u
    obtain ⟨t₂, h₂, hc₂⟩ := colon_not_mem_dot (trimSpace (trimSuffix u [dot]))
    refine ⟨t₂ ++ ws.flatten ++ t₁, ?_, ?_⟩
    · rw [hnorm, List.append_assoc, ← List.append_assoc, ← h₂, ← List.append_assoc, ← hy]
      exact h₁
    · simp only [List.mem_append, hc₁, hc₂, hcolon, or_self, not_false_eq_true]
  · have hblank : ws.flatten ≠ [] := by
      intro hnil
      rw [hnil, List.append_nil] at hy
      exact hne hy.symm
    have hlast : (trimSuffix u [dot]).getLast? ≠ some dot := by
      intro hl
      rw [hy, List.getLast?_append_of_ne_nil _ hblank] at hl
      exact hdot (List.mem_of_getLast? hl)
    refine ⟨?_, trimSuffix_of_not hlast, ?_⟩
    · rcases trimSuffix_cases u with ⟨he, -⟩ | he
      · rw [he] at hne
        exact absurd htrim hne
      · exact he
    · have hle := (trimSuffix_begins (trimSpace (trimSuffix u [dot])) [dot]).length_le
      have hpos := List.length_pos_iff.mpr hblank
      have hlen := congrArg List.length hy
      rw [List.length_append] at hlen
      rw [hnorm]
      omega

/-! ## The name of a host with a key -/

theorem not_mem_lower {b : UInt8} (hb : b.toNat < 0x61) (h : b ∉ host) :
    b ∉ toLower (trimSpace host) := by
  intro hm
  exact h ((trimSpace_within host).subset (mem_of_mem_toLower hm hb))

/-- Without brackets around it, the host is looked up by the dialer as it is. -/
theorem plain_key (h : dialKey host port = some key) (ho : openBracket ∉ host) :
    closeBracket ∉ host ∧ normalizeHost host ≠ [] ∧ normalizeHost (normalizeHost host) = key := by
  have hnorm : normalizeHost (trimSpace host) = normalizeHost host := by
    rw [normalizeHost, normalizeHost, trimSpace_trimSpace]
  obtain ⟨x, -, hc, rfl | ⟨-, rfl⟩, hne, hkey⟩ := dialKey_some h
  · rw [hnorm] at hne hkey
    exact ⟨hc, hne, hkey⟩
  · exact absurd List.mem_cons_self ho

/-- A host in brackets is routed by its text with the brackets. -/
theorem bracketed_name (h : dialKey host port = some key) (ho : openBracket ∈ host) :
    routeName host = some (toLower (trimSpace host)) ∧ openBracket ∈ toLower (trimSpace host) := by
  obtain ⟨x, hox, -, rfl | ⟨hcolon, rfl⟩, -, -⟩ := dialKey_some h
  · exact absurd ho hox
  · have htrim : trimSpace (openBracket :: x ++ [closeBracket]) = openBracket :: x ++ [closeBracket] :=
      trimSpace_id (not_prefix_cons (by decide) (by decide) _) (not_suffix_concat (by decide) (by decide) _)
    have hlow : toLower (openBracket :: x ++ [closeBracket]) = openBracket :: toLower x ++ [closeBracket] := by
      rw [toLower_append_cons (by decide), toLower_cons (by decide), toLower_nil]
      rfl
    have hnot : colon ∉ openBracket :: toLower x ++ [closeBracket] := by
      simp only [List.mem_append, List.mem_cons, List.not_mem_nil, or_false, not_or]
      exact ⟨⟨by decide, fun hm => hcolon (mem_of_mem_toLower hm (by decide))⟩, by decide⟩
    have hlast : (openBracket :: toLower x ++ [closeBracket]).getLast? ≠ some dot := by
      rw [List.getLast?_concat]
      decide
    have hspelled : spelledHost (openBracket :: x ++ [closeBracket]) =
        openBracket :: toLower x ++ [closeBracket] := by
      rw [spelledHost, htrim, hlow, withoutPort_no_colon hnot, trimSuffix_of_not hlast]
    rw [routeName, hspelled, htrim, hlow, trimSuffix_of_not hlast, if_neg (by simp)]
    exact ⟨rfl, by simp⟩

/-- Nothing else is routed by a name with a bracket. -/
theorem plain_name (ho : openBracket ∉ host) {name : Bytes} (h : routeName host = some name) :
    openBracket ∉ name := by
  have hwithout : openBracket ∉ withoutPort (toLower (trimSpace host)) := by
    cases hs : splitHostPort (toLower (trimSpace host)) with
    | none =>
      rw [withoutPort_none hs]
      exact not_mem_lower (by decide) ho
    | some p =>
      rw [withoutPort, hs]
      exact (splitHostPort_some hs).1
  rw [routeName] at h
  obtain ⟨-, hname⟩ := Option.ite_none_left_eq_some.mp h
  cases hname
  intro hm
  refine hwithout (((trimSuffix_begins _ _).trans ?_).subset hm)
  exact trimSuffix_begins _ _

/-- Without a port, a host with a key is routed by what the first normalising leaves,
less one more dot. -/
theorem portless_name (h : dialKey host port = some key) (ho : openBracket ∉ host)
    (hp : ¬HasPort (toLower (trimSpace host))) :
    routeName host = some (trimSuffix (normalizeHost host) [dot]) := by
  obtain ⟨-, hne, -⟩ := plain_key h ho
  have hhead : (toLower (trimSpace host)).head? ≠ some openBracket := by
    intro hh
    exact not_mem_lower (by decide) ho (List.mem_of_head? hh)
  have hspelled : spelledHost host = normalizeHost host := by
    rw [spelledHost, withoutPort_none ((splitHostPort_none_iff hhead).mpr hp), normalizeHost]
  rw [routeName, hspelled, if_neg hne]

/-- The key is a beginning of the lower-case text and holds its colons. -/
theorem key_begins (h : dialKey host port = some key) (ho : openBracket ∉ host) :
    ∃ tail, toLower (trimSpace host) = key ++ tail ∧ colon ∉ tail := by
  obtain ⟨-, -, hkey⟩ := plain_key h ho
  obtain ⟨-, htail, -⟩ := normalize_again (toLower_toLower (trimSpace host)) (trimSpace_toLower host)
  rwa [← normalizeHost, hkey] at htail

/-- With a port, it is routed by what stands before the colon of the key. -/
theorem port_name (h : dialKey host port = some key) (ho : openBracket ∉ host)
    (hp : HasPort (toLower (trimSpace host))) :
    ∃ before after, splitFirst colon key = some (before, after) ∧
      routeName host = if trimSuffix before [dot] = [] then none
        else some (trimSuffix (trimSuffix before [dot]) [dot]) := by
  obtain ⟨tail, htext, htail⟩ := key_begins h ho
  have hhead : (toLower (trimSpace host)).head? ≠ some openBracket := fun hh =>
    not_mem_lower (by decide) ho (List.mem_of_head? hh)
  obtain ⟨⟨before, after⟩, hs⟩ := Option.ne_none_iff_exists'.mp
    (mt (splitHostPort_none_iff hhead).mp (not_not.mpr hp))
  obtain ⟨hu, hbefore⟩ := splitHostPort_unbracketed hhead hs
  have hcolon : colon ∈ key := by
    have hm : colon ∈ key ++ tail := by
      rw [← htext, hu]
      simp
    exact (List.mem_append.mp hm).resolve_right htail
  obtain ⟨x, y, hkey, hx⟩ := List.eq_append_cons_of_mem hcolon
  have hsame : some (x, y ++ tail) = some (before, after) := by
    rw [← splitFirst_append hx, ← splitFirst_append hbefore, ← hu, htext, hkey]
    simp
  cases hsame
  refine ⟨before, y, by rw [hkey, splitFirst_append hx], ?_⟩
  simp only [routeName, spelledHost, withoutPort, hs]

theorem key_colons (h : dialKey host port = some key) (ho : openBracket ∉ host) :
    HasPort (toLower (trimSpace host)) ↔ key.count colon = 1 := by
  obtain ⟨tail, htext, htail⟩ := key_begins h ho
  have hopen := not_mem_lower (show openBracket.toNat < 0x61 by decide) ho
  have hclose := not_mem_lower (show closeBracket.toNat < 0x61 by decide) (plain_key h ho).1
  rw [HasPort, htext, List.count_append, List.count_eq_zero.mpr htail, ← htext]
  simp only [Nat.add_zero, hopen, hclose, not_false_eq_true, and_true]

/-- A host that is spelled plainly and has no port is routed by its key. -/
theorem clean_name (h : dialKey host port = some key) (ho : openBracket ∉ host)
    (hp : ¬HasPort (toLower (trimSpace host))) (hclean : trimSpace (normalizeHost host) = normalizeHost host) :
    routeName host = some key := by
  obtain ⟨-, -, hkey⟩ := plain_key h ho
  obtain ⟨hagain, -⟩ := normalize_again (toLower_toLower (trimSpace host)) (trimSpace_toLower host)
  rw [portless_name h ho hp, ← hkey]
  rw [← normalizeHost, hclean] at hagain
  rw [hagain]

/-- A host with a blank before its last dot is routed by a text longer than its key. -/
theorem unclean_name (h : dialKey host port = some key) (ho : openBracket ∉ host)
    (hp : ¬HasPort (toLower (trimSpace host))) (hclean : trimSpace (normalizeHost host) ≠ normalizeHost host) :
    ∃ name, routeName host = some name ∧ toLower (trimSpace host) = name ++ [dot] ∧
      key.length < name.length := by
  obtain ⟨-, -, hkey⟩ := plain_key h ho
  obtain ⟨-, -, hlong⟩ := normalize_again (toLower_toLower (trimSpace host)) (trimSpace_toLower host)
  rw [← normalizeHost, hkey] at hlong
  obtain ⟨htext, hdot, hlen⟩ := hlong hclean
  exact ⟨normalizeHost host, by rw [portless_name h ho hp, hdot], htext, hlen⟩

theorem routeName_congr (h : toLower (trimSpace h₁) = toLower (trimSpace h₂)) :
    routeName h₁ = routeName h₂ := by
  rw [routeName, routeName, spelledHost, spelledHost, h]

/-- Plainly spelled hosts with one key have one name. -/
theorem plain_alike (hk₁ : dialKey h₁ p₁ = some key) (hk₂ : dialKey h₂ p₂ = some key)
    (hp₁ : PlainSpelling h₁) (hp₂ : PlainSpelling h₂) : routeName h₁ = routeName h₂ := by
  obtain ⟨ho₁, hc₁⟩ := hp₁
  obtain ⟨ho₂, hc₂⟩ := hp₂
  have hcolons := (key_colons hk₁ ho₁).trans (key_colons hk₂ ho₂).symm
  by_cases hport : HasPort (toLower (trimSpace h₁))
  · obtain ⟨x, y, hs, hn⟩ := port_name hk₁ ho₁ hport
    obtain ⟨x', y', hs', hn'⟩ := port_name hk₂ ho₂ (hcolons.mp hport)
    rw [hs] at hs'
    cases hs'
    rw [hn, hn']
  · have hport' := mt hcolons.mpr hport
    rw [clean_name hk₁ ho₁ hport (hc₁.resolve_left hport),
      clean_name hk₂ ho₂ hport' (hc₂.resolve_left hport')]

/-- A host that is not has the name of another with its key only as the same text. -/
theorem unplain_apart (hk₁ : dialKey h₁ p₁ = some key) (hk₂ : dialKey h₂ p₂ = some key)
    (hp : ¬PlainSpelling h₁) (h : routeName h₁ = routeName h₂) :
    toLower (trimSpace h₁) = toLower (trimSpace h₂) := by
  by_cases ho₁ : openBracket ∈ h₁
  · obtain ⟨hn, hm⟩ := bracketed_name hk₁ ho₁
    rw [hn] at h
    by_cases ho₂ : openBracket ∈ h₂
    · rw [(bracketed_name hk₂ ho₂).1] at h
      exact Option.some.inj h
    · exact absurd hm (plain_name ho₂ h.symm)
  · have hnot : ¬HasPort (toLower (trimSpace h₁)) ∧ trimSpace (normalizeHost h₁) ≠ normalizeHost h₁ := by
      rw [← not_or]
      exact fun hor => hp ⟨ho₁, hor⟩
    obtain ⟨name, hn, htext, hlen⟩ := unclean_name hk₁ ho₁ hnot.1 hnot.2
    rw [hn] at h
    by_cases ho₂ : openBracket ∈ h₂
    · obtain ⟨hn₂, hm⟩ := bracketed_name hk₂ ho₂
      rw [hn₂] at h
      cases h
      exact absurd hm (plain_name ho₁ hn)
    · have hport : ¬HasPort (toLower (trimSpace h₂)) :=
        mt ((key_colons hk₁ ho₁).trans (key_colons hk₂ ho₂).symm).mpr hnot.1
      by_cases hclean : trimSpace (normalizeHost h₂) = normalizeHost h₂
      · rw [clean_name hk₂ ho₂ hport hclean] at h
        cases h
        exact absurd hlen (Nat.lt_irrefl _)
      · obtain ⟨name₂, hn₂, htext₂, -⟩ := unclean_name hk₂ ho₂ hport hclean
        rw [hn₂] at h
        cases h
        rw [htext, htext₂]

/-- Two hosts the dialer looks up under one key are routed alike exactly when they
are one text but for case and outer blanks, or neither has brackets around it or a
blank before a last dot. -/
theorem same_key_routed_alike_iff (h₁ h₂ key : Bytes) (p₁ p₂ : Nat) (hk₁ : dialKey h₁ p₁ = some key)
    (hk₂ : dialKey h₂ p₂ = some key) :
    (∀ direct dns cache, resolveRoute direct dns cache h₁ = resolveRoute direct dns cache h₂) ↔
      toLower (trimSpace h₁) = toLower (trimSpace h₂) ∨ PlainSpelling h₁ ∧ PlainSpelling h₂ := by
  rw [routed_alike_iff]
  constructor
  · intro h
    by_cases hp₁ : PlainSpelling h₁
    · by_cases hp₂ : PlainSpelling h₂
      · exact Or.inr ⟨hp₁, hp₂⟩
      · exact Or.inl (unplain_apart hk₂ hk₁ hp₂ h.symm).symm
    · exact Or.inl (unplain_apart hk₁ hk₂ hp₁ h)
  · rintro (htext | ⟨hp₁, hp₂⟩)
    · exact routeName_congr htext
    · exact plain_alike hk₁ hk₂ hp₁ hp₂

/-- `a.com`. -/
def comName : Bytes := [0x61, 0x2E, 0x63, 0x6F, 0x6D]

/-- `A.com.` and `a.com` go one way. -/
theorem dotted_routed_alike : dialKey [0x41, 0x2E, 0x63, 0x6F, 0x6D, 0x2E] 443 = some comName ∧
    ∀ direct dns cache, resolveRoute direct dns cache [0x41, 0x2E, 0x63, 0x6F, 0x6D, 0x2E] =
      resolveRoute direct dns cache comName :=
  ⟨by decide +kernel, (same_key_routed_alike_iff [0x41, 0x2E, 0x63, 0x6F, 0x6D, 0x2E] comName comName
    443 443 (by decide +kernel) (by decide +kernel)).mpr (Or.inr (by decide +kernel))⟩

/-- `[a.com]`, which the dialer looks up as `a.com`, misses the rule for `a.com`, and
so does `a.com. .`. -/
theorem bracketed_evades : ∃ cache : RouteCache, ∀ host ∈ [[openBracket] ++ comName ++ [closeBracket],
    comName ++ [0x2E, 0x20, 0x2E]], dialKey host 443 = some comName ∧ dialKey comName 443 = some comName ∧
      resolveRoute [] (fun _ => none) (some cache) host ≠ resolveRoute [] (fun _ => none) (some cache) comName :=
  ⟨⟨fun n => if n = comName then some [0x61] else some [0x62], .nil, .empty, []⟩, by decide +kernel⟩

end SplitProxy.Direct
