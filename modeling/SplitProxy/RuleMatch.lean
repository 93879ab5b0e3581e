import SplitProxy.StoredDomains

/-!
# The hosts a stored domain rule is for

A key of the domain hash is trimmed and lower-cased when it is loaded; a host is
moreover rid of a port and of trailing dots when it is looked up. A rule is found
under its own name when the lookup leaves that name alone.
-/
namespace SplitProxy.Routing

open GoText NetIP

/-! ## Names -/

/-- `n` ends with `s`, at a dot unless it is `s`. -/
theorem suffix_of_labels_suffix {n s : Bytes} (h : labels s <:+ labels n) : s <:+ n := by
  obtain ⟨ls, hls⟩ := h
  have hs : [dot].intercalate (labels s) = s := List.intercalate_splitOn _
  have hn : [dot].intercalate (labels n) = n := List.intercalate_splitOn _
  have hall : ∀ ls : List Bytes, [dot].intercalate (labels s) <:+ [dot].intercalate (ls ++ labels s) := by
    intro ls
    induction ls with
    | nil => exact List.suffix_rfl
    | cons l ls ih =>
      have hne : ls ++ labels s ≠ [] := List.append_ne_nil_of_right_ne_nil ls (List.splitOn_ne_nil _ _)
      rw [List.cons_append, List.intercalate_cons_of_ne_nil hne]
      exact ih.trans (List.suffix_append _ _)
  have := hall ls
  rwa [hls, hs, hn] at this

theorem labels_under {x s : Bytes} (hx : dot ∉ x) : labels (x ++ dot :: s) = x :: labels s :=
  List.splitOn_append_cons_self_of_not_mem hx s

/-- A name with a label more lies below. -/
theorem below_under {x s : Bytes} (hx : dot ∉ x) : Below (x ++ dot :: s) (labels s) := by
  rw [Below, labels_under hx]
  exact ⟨List.suffix_cons x (labels s), fun h => by simpa using congrArg List.length h⟩

/-- Nothing longer than the zone does. -/
theorem below_under_eq {x s : Bytes} {suffix : List Bytes} (hx : dot ∉ x)
    (h : Below (x ++ dot :: s) suffix) (hlen : (labels s).length ≤ suffix.length) :
    suffix = labels s := by
  rw [Below, labels_under hx, List.suffix_cons_iff] at h
  have hs := h.1.resolve_left h.2
  exact hs.eq_of_length_le hlen

theorem toLower_mark (s : Bytes) : toLower (wildcardMark ++ s) = wildcardMark ++ toLower s := by
  rw [wildcardMark, List.cons_append, List.cons_append, toLower_cons (by decide),
    toLower_cons (by decide)]
  rfl

theorem isPrefixOf_toLower (p : Bytes) :
    wildcardMark.isPrefixOf (toLower p) = wildcardMark.isPrefixOf p := by
  rw [Bool.eq_iff_iff, List.isPrefixOf_iff_prefix, List.isPrefixOf_iff_prefix]
  constructor
  · rintro ⟨t, ht⟩
    obtain ⟨p₁, rfl⟩ := toLower_eq_cons (by decide) ht.symm
    rw [toLower_cons (by decide)] at ht
    obtain ⟨p₂, rfl⟩ := toLower_eq_cons (by decide) (List.cons.inj ht).2.symm
    exact ⟨p₂, rfl⟩
  · rintro ⟨t, rfl⟩
    exact ⟨toLower t, (toLower_mark t).symm⟩

theorem wildcardSuffix_mark {s : Bytes} {suffix : List Bytes} :
    wildcardSuffix (wildcardMark ++ s) = some suffix ↔ [] ∉ labels s ∧ labels s = suffix := by
  have hp : wildcardMark.isPrefixOf (wildcardMark ++ s) = true :=
    List.isPrefixOf_iff_prefix.mpr (List.prefix_append _ _)
  have hdrop : (wildcardMark ++ s).drop 2 = s := rfl
  rw [wildcardSuffix, hp, hdrop]
  by_cases hl : [] ∈ labels s
  · simp [hl]
  · have hs : s ≠ [] := by
      rintro rfl
      exact hl (by simp [labels])
    simp [hl, hs]

/-! ## Hosts -/

theorem trimSuffix_cons_ne_nil {b : UInt8} (hb : b ≠ dot) (s : Bytes) : trimSuffix (b :: s) [dot] ≠ [] := by
  rcases List.eq_nil_or_concat s with rfl | ⟨y, c, rfl⟩
  · rw [trimSuffix_of_not (by simpa using hb)]
    simp
  · by_cases hc : c = dot
    · subst hc
      rw [List.concat_eq_append, ← List.cons_append, trimSuffix_append]
      simp
    · rw [trimSuffix_of_not (by simpa [List.getLast?_cons] using hc)]
      simp

theorem withoutPort_shorter {s : Bytes} (h : splitHostPort s ≠ none) :
    (withoutPort s).length < s.length := by
  obtain ⟨⟨host, port⟩, hs⟩ := Option.ne_none_iff_exists'.mp h
  rw [withoutPort, hs]
  simp only
  unfold splitHostPort at hs
  cases hl : splitLast colon s with
  | none =>
    rw [hl] at hs
    cases hs
  | some q =>
    obtain ⟨before, after⟩ := q
    obtain ⟨rfl, -⟩ := splitLast_some hl
    rw [hl] at hs
    simp only at hs
    rw [List.length_append, List.length_cons]
    split at hs
    · split at hs
      · rename_i x hf
        obtain ⟨hb, -⟩ := splitFirst_some hf
        split at hs
        · cases hs
        · cases hs
          rw [hb, List.length_append, List.length_drop]
          omega
      · cases hs
    · split at hs
      · cases hs
      · split at hs
        · cases hs
        · cases hs
          omega

/-- Below a label the zone alone makes a host and port. -/
theorem splitHostPort_under {x s : Bytes} (hne : x ≠ []) (hx : PortText x) :
    splitHostPort (x ++ dot :: s) = none ↔ ¬HasPort s := by
  have hhead : (x ++ dot :: s).head? ≠ some openBracket := by
    obtain ⟨b, y, rfl⟩ := List.exists_cons_of_ne_nil hne
    simpa using (hx b List.mem_cons_self).2.1
  have hcolon : (x ++ dot :: s).count colon = s.count colon := by
    rw [List.count_append, List.count_eq_zero.mpr hx.colon, List.count_cons_of_ne (by decide),
      Nat.zero_add]
  have hopen : openBracket ∉ x := fun h => (hx _ h).2.1 rfl
  have hclose : closeBracket ∉ x := fun h => (hx _ h).2.2 rfl
  have hdots : ¬openBracket = dot ∧ ¬closeBracket = dot := by decide
  rw [splitHostPort_none_iff hhead, HasPort, HasPort, hcolon]
  simp [hopen, hclose, hdots]

end SplitProxy.Routing

namespace SplitProxy.Admin

open Runs GoText SyncMap Routing

/-! ## What a rule promises -/

/-- Lower case, trimmed, without the trailing dot. -/
def normalName (s : Bytes) : Bytes := trimSuffix (toLower (trimSpace s)) [dot]

/-- A label of a host name. -/
structure HostLabel (x : Bytes) : Prop where
  nonempty : x ≠ []
  noDot : dot ∉ x
  noPort : PortText x
  noBlank : NoBlank x

/-- A stored rule, with a route, that is no wildcard and has the name of the host. -/
def NamedExactly (s : Store) (host : Bytes) : Prop :=
  ∃ k v, (k, v) ∈ s.domains ∧ trimSpace v ≠ [] ∧ wildcardMark.isPrefixOf k = false ∧
    normalName k = normalName host

/-- A stored wildcard, with a route, for a longer zone the host lies below. -/
def NamedMoreClosely (s : Store) (pattern host : Bytes) : Prop :=
  ∃ k v suffix, (k, v) ∈ s.domains ∧ trimSpace v ≠ [] ∧ wildcardSuffix (normalName k) = some suffix ∧
    (∀ own, wildcardSuffix (normalName pattern) = some own → own.length < suffix.length) ∧
    Below (normalName host) suffix

/-- In every hash with the rule, in which no other key is the same name, a plain
rule has its route for its own text, and a wildcard for every label below its zone
that has no closer rule. -/
def RuleMatches (d p r : Bytes) : Prop :=
  ∀ rs s x v dns, run (step d) (installed d) rs = some s → Reads s x → (p, v) ∈ s.domains →
    trimSpace v = r → (∀ k w, (k, w) ∈ s.domains → normalName k = normalName p → k = p) →
    (wildcardMark.isPrefixOf p = false → resolveRoute d dns (some (loadRoutes d x)) p = r) ∧
    ∀ zone, p = wildcardMark ++ zone → ∀ label, HostLabel label →
      ¬NamedExactly s (label ++ dot :: zone) → ¬NamedMoreClosely s p (label ++ dot :: zone) →
      resolveRoute d dns (some (loadRoutes d x)) (label ++ dot :: zone) = r

/-- The rule is stored at some time, with this route. -/
def Stores (d p r : Bytes) : Prop :=
  ∃ rs s v, run (step d) (installed d) rs = some s ∧ (p, v) ∈ s.domains ∧ trimSpace v = r ∧ r ≠ []

/-- A zone has no empty label and no port. A plain pattern has no port and no
trailing dot, unless nothing but these is there and the route is the direct one. -/
def SpellsItself (d p r : Bytes) : Prop :=
  let pattern := toLower (trimSpace p)
  if wildcardMark.isPrefixOf pattern then
    [] ∉ labels (pattern.drop 2) ∧ ¬HasPort (pattern.drop 2)
  else
    splitHostPort pattern = none ∧ pattern.getLast? ≠ some dot ∨ spelledHost p = [] ∧ r = d

variable {d p r : Bytes} {s : Store}

theorem PatternText.trimmed (h : PatternText p) : trimSpace p = p ∧ p ≠ [] := by
  obtain ⟨text, htext⟩ := h
  exact charField_some htext

theorem ValueText.trimmed (h : ValueText d r) : trimSpace r = r := by
  rcases h with rfl | ⟨text, htext⟩
  · exact trimSpace_direct
  · unfold groupNameField at htext
    simp only [installed, List.filter_nil, List.any_nil, Bool.false_eq_true, ↓reduceIte] at htext
    split at htext
    · cases htext
      decide
    · cases hc : charField 255 text with
      | none =>
        rw [hc] at htext
        cases htext
      | some n =>
        rw [hc] at htext
        simp only at htext
        split at htext
        · cases htext
        · cases htext
          exact (charField_some hc).1

/-- The text of a host below the zone of a trimmed pattern. -/
theorem trimSpace_under {label zone : Bytes} (hl : HostLabel label)
    (hp : trimSpace (wildcardMark ++ zone) = wildcardMark ++ zone) :
    trimSpace (label ++ dot :: zone) = label ++ dot :: zone := by
  have hdot : ∀ w ∈ spaces, dot ∉ w := by decide
  apply trimSpace_id
  · intro w hw hpre
    rcases List.prefix_or_prefix_of_prefix hpre (List.prefix_append label (dot :: zone)) with h | h
    · exact hl.noBlank w hw h.isInfix
    · obtain ⟨u, rfl⟩ := h
      rw [List.prefix_append_right_inj] at hpre
      cases u with
      | nil =>
        rw [List.append_nil] at hw
        exact hl.noBlank label hw List.infix_rfl
      | cons b u =>
        have hb := (List.cons_prefix_cons.mp hpre).1
        exact hdot _ hw (by rw [hb]; simp)
  · intro w hw hsuf
    rcases List.suffix_or_suffix_of_suffix hsuf (List.suffix_append label (dot :: zone)) with h | h
    · rcases List.suffix_cons_iff.mp h with rfl | h
      · exact hdot _ hw List.mem_cons_self
      · have hlast := trimSpace_done (wildcardMark ++ zone) w hw
        rw [hp] at hlast
        exact hlast (h.trans (List.suffix_append _ _))
    · exact hdot w hw (h.subset List.mem_cons_self)

/-- A label of a host in lower case. -/
theorem label_toLower {label : Bytes} (hl : HostLabel label) :
    toLower label ≠ [] ∧ dot ∉ toLower label ∧ PortText (toLower label) := by
  refine ⟨toLower_ne_nil hl.nonempty, fun h => hl.noDot (mem_of_mem_toLower h (by decide)), ?_⟩
  intro b hb
  refine ⟨?_, ?_, ?_⟩
  · rintro rfl
    exact (hl.noPort _ (mem_of_mem_toLower hb (by decide))).1 rfl
  · rintro rfl
    exact (hl.noPort _ (mem_of_mem_toLower hb (by decide))).2.1 rfl
  · rintro rfl
    exact (hl.noPort _ (mem_of_mem_toLower hb (by decide))).2.2 rfl

theorem toLower_under (label zone : Bytes) :
    toLower (label ++ dot :: zone) = toLower label ++ dot :: toLower zone := by
  rw [toLower_append_cons (by decide), map_lowerByte_dot]

theorem resolveRoute_spelt {dns : Answers} {cache : RouteCache} {host : Bytes}
    (h : spelledHost host ≠ []) : resolveRoute d dns (some cache) host =
      routeFor d dns cache (trimSuffix (spelledHost host) [dot]) := if_neg h

theorem resolveRoute_blank {dns : Answers} {cache : RouteCache} {host : Bytes}
    (h : spelledHost host = []) : resolveRoute d dns (some cache) host = d := if_pos h

/-! ## Rules that match -/

/-- The entries that come down to the pattern of a sole key have its route. -/
theorem route_of_sole (hi : Formed d s) {v : Bytes} (hp : (p, v) ∈ s.domains) (hv : trimSpace v = r)
    (hsole : ∀ k w, (k, w) ∈ s.domains → normalName k = normalName p → k = p)
    {e : Bytes × Bytes} (he : e ∈ s.domains) {route : Route}
    (hrule : domainRule e = some (toLower (trimSpace p), route)) : route = r := by
  obtain ⟨k, w⟩ := e
  simp only [domainRule, Option.ite_none_left_eq_some, Option.some.injEq, Prod.mk.injEq] at hrule
  obtain ⟨-, hpattern, rfl⟩ := hrule
  have hk : k = p := hsole k w he (by rw [normalName, normalName, hpattern])
  subst hk
  have hw := (hi.functional k w he).symm.trans (hi.functional k v hp)
  rw [← hv, Option.some.inj hw]

theorem domainRule_stored (hp : trimSpace p = p ∧ p ≠ []) {v : Bytes} (hv : trimSpace v = r) (hr : r ≠ []) :
    domainRule (p, v) = some (toLower (trimSpace p), r) := by
  have hne : toLower (trimSpace p) ≠ [] := by
    rw [hp.1]
    exact toLower_ne_nil hp.2
  simp only [domainRule, hne, hv, hr, or_self, ↓reduceIte]

theorem plain_matches {x : Stored} {v : Bytes} {dns : Answers} (hi : Formed d s) (hx : Reads s x)
    (hp : (p, v) ∈ s.domains) (hv : trimSpace v = r) (hr : r ≠ [])
    (hsole : ∀ k w, (k, w) ∈ s.domains → normalName k = normalName p → k = p)
    (hplain : wildcardMark.isPrefixOf p = false) (h : SpellsItself d p r) :
    resolveRoute d dns (some (loadRoutes d x)) p = r := by
  have htrim := (hi.domains p v hp).1.trimmed
  have hw : wildcardMark.isPrefixOf (toLower (trimSpace p)) = false := by
    rw [isPrefixOf_toLower, htrim.1, hplain]
  simp only [SpellsItself, hw, Bool.false_eq_true, ↓reduceIte] at h
  rcases h with ⟨hport, hlast⟩ | ⟨hblank, rfl⟩
  · have hspelled : spelledHost p = toLower (trimSpace p) := by
      rw [spelledHost, withoutPort_none hport, trimSuffix_of_not hlast]
    have hne : toLower (trimSpace p) ≠ [] := by
      rw [htrim.1]
      exact toLower_ne_nil htrim.2
    rw [resolveRoute_spelt (by rw [hspelled]; exact hne), hspelled, trimSuffix_of_not hlast]
    cases hd : (loadRoutes d x).domains (toLower (trimSpace p)) with
    | none =>
      refine absurd ?_ (exact_none hd (p, v) (hx.domains.mem_iff.mpr hp))
      refine exactName_iff.mpr ⟨?_, hw⟩
      rw [domainRule_stored htrim hv hr, hv]
    | some route =>
      obtain ⟨e, he, hrule, -⟩ := exact_some hd
      rw [routeFor_exact hd]
      exact route_of_sole hi hp hv hsole (hx.domains.mem_iff.mp he) hrule
  · exact resolveRoute_blank hblank

/-- What a host below the zone is looked up by. -/
theorem spelledHost_under {label zone : Bytes} (hl : HostLabel label)
    (hp : trimSpace (wildcardMark ++ zone) = wildcardMark ++ zone)
    (hz : [] ∉ labels (toLower zone)) (hport : ¬HasPort (toLower zone)) :
    spelledHost (label ++ dot :: zone) = toLower label ++ dot :: toLower zone ∧
      trimSuffix (spelledHost (label ++ dot :: zone)) [dot] = toLower label ++ dot :: toLower zone := by
  obtain ⟨hne, hdot, htext⟩ := label_toLower hl
  have hlast : (toLower label ++ dot :: toLower zone).getLast? ≠ some dot := by
    apply getLast_of_labels
    rw [labels_under hdot, List.mem_cons, not_or]
    exact ⟨Ne.symm hne, hz⟩
  have hspelled : spelledHost (label ++ dot :: zone) = toLower label ++ dot :: toLower zone := by
    rw [spelledHost, trimSpace_under hl hp, toLower_under,
      withoutPort_none ((splitHostPort_under hne htext).mpr hport), trimSuffix_of_not hlast]
  exact ⟨hspelled, by rw [hspelled, trimSuffix_of_not hlast]⟩

theorem wildcard_matches {x : Stored} {v zone label : Bytes} {dns : Answers} (hi : Formed d s)
    (hx : Reads s x) (hp : (wildcardMark ++ zone, v) ∈ s.domains) (hv : trimSpace v = r) (hr : r ≠ [])
    (hsole : ∀ k w, (k, w) ∈ s.domains → normalName k = normalName (wildcardMark ++ zone) →
      k = wildcardMark ++ zone) (hl : HostLabel label)
    (hexact : ¬NamedExactly s (label ++ dot :: zone)) (h : SpellsItself d (wildcardMark ++ zone) r) :
    resolveRoute d dns (some (loadRoutes d x)) (label ++ dot :: zone) = r := by
  have htrim := (hi.domains _ v hp).1.trimmed
  have hpattern : toLower (trimSpace (wildcardMark ++ zone)) = wildcardMark ++ toLower zone := by
    rw [htrim.1, toLower_mark]
  have hmark : ∀ z, wildcardMark.isPrefixOf (wildcardMark ++ z) = true :=
    fun z => List.isPrefixOf_iff_prefix.mpr (List.prefix_append _ _)
  have hdrop : (wildcardMark ++ toLower zone).drop 2 = toLower zone := rfl
  simp only [SpellsItself, hpattern, hmark, hdrop, ↓reduceIte] at h
  obtain ⟨hz, hport⟩ := h
  obtain ⟨hne, hdot, -⟩ := label_toLower hl
  obtain ⟨hspelled, hname⟩ := spelledHost_under hl htrim.1 hz hport
  have hlabels : [] ∉ labels (toLower label ++ dot :: toLower zone) := by
    rw [labels_under hdot, List.mem_cons, not_or]
    exact ⟨Ne.symm hne, hz⟩
  rw [resolveRoute_spelt (by rw [hspelled]; simp), hname]
  have hrule := domainRule_stored htrim hv hr
  rw [hpattern] at hrule
  have hd : (loadRoutes d x).domains (toLower label ++ dot :: toLower zone) = none := by
    by_contra hd
    obtain ⟨route, hd⟩ := Option.ne_none_iff_exists'.mp hd
    obtain ⟨⟨k, w⟩, he, hk, hplain⟩ := exact_some hd
    have hmem := hx.domains.mem_iff.mp he
    have hkt := (hi.domains k w hmem).1.trimmed
    simp only [domainRule, Option.ite_none_left_eq_some, Option.some.injEq, Prod.mk.injEq,
      not_or] at hk
    refine hexact ⟨k, w, hmem, hk.1.2, ?_, ?_⟩
    · rw [← isPrefixOf_toLower, ← hkt.1, hk.2.1, hplain]
    · rw [normalName, normalName, hk.2.1, trimSpace_under hl htrim.1, toLower_under]
  have hwild : (loadRoutes d x).wildcardDomains = loadWildcards (x.domains.filterMap domainRule) :=
    wildcards_loadDomain x.domains _
  have hsuffix : wildcardSuffix (wildcardMark ++ toLower zone) = some (labels (toLower zone)) :=
    wildcardSuffix_mark.mpr ⟨hz, rfl⟩
  have hstored : (wildcardMark ++ toLower zone, r) ∈ x.domains.filterMap domainRule :=
    List.mem_filterMap.mpr ⟨_, hx.domains.mem_iff.mpr hp, hrule⟩
  cases hw : lookupWildcard (loadRoutes d x).wildcardDomains (toLower label ++ dot :: toLower zone) with
  | none =>
    rw [hwild] at hw
    exact absurd (below_under hdot) ((lookupWildcard_none_iff _ hlabels).mp hw _ hstored _ hsuffix)
  | some route =>
    have hanswer : routeFor d dns (loadRoutes d x) (toLower label ++ dot :: toLower zone) = route := by
      simp only [routeFor, hd, hw]
    rw [hanswer]
    rw [hwild] at hw
    obtain ⟨suffix, hm⟩ := mostSpecific_of_lookupWildcard hw
    have heq := below_under_eq hdot hm.below (hm.longest _ hstored _ hsuffix (below_under hdot))
    subst heq
    obtain ⟨before, pattern, after, hrules, hs, -⟩ := hm.rule
    obtain ⟨e, he, hk⟩ := List.mem_filterMap.mp (by rw [hrules]; simp :
      (pattern, route) ∈ x.domains.filterMap domainRule)
    have hsame : pattern = wildcardMark ++ toLower zone := by
      have hpre : wildcardMark.isPrefixOf pattern = true := by
        by_contra hno
        simp [wildcardSuffix, hno] at hs
      obtain ⟨z, rfl⟩ := List.isPrefixOf_iff_prefix.mp hpre
      rw [labels_injective (wildcardSuffix_mark.mp hs).2]
    rw [hsame, ← hpattern] at hk
    exact route_of_sole hi hp hv hsole (hx.domains.mem_iff.mp he) hk

theorem matches_of_spells (hr : r ≠ []) (h : SpellsItself d p r) : RuleMatches d p r := by
  intro rs s x v dns hrun hx hp hv hsole
  have hi := formed_run hrun
  refine ⟨fun hplain => plain_matches hi hx hp hv hr hsole hplain h, ?_⟩
  rintro zone rfl label hl hexact -
  exact wildcard_matches hi hx hp hv hr hsole hl hexact h

/-! ## Rules that do not -/

/-- When the hash holds one rule, the default is another route and there are no
CIDRs, the rule's route is given only to names it matches. -/
theorem patternMatches_of_answer {f : Bytes} {dns : Answers} (hp : trimSpace p = p ∧ p ≠ [])
    (hr : trimSpace r = r ∧ r ≠ []) (hf : trimSpace f = f) (hne : f ≠ []) (hfr : f ≠ r) {host : Bytes}
    (hhost : spelledHost host ≠ [])
    (h : resolveRoute d dns (some (loadRoutes d ⟨[(p, r)], [], some f⟩)) host = r) :
    PatternMatches (toLower (trimSpace p)) (trimSuffix (spelledHost host) [dot]) := by
  have hdecided := resolveRoute_decided d ⟨[(p, r)], [], some f⟩ dns hhost
  rw [h] at hdecided
  rcases hdecided with ⟨e, he, pattern, hrule, hm⟩ | ⟨-, ⟨e, he, -⟩ | ⟨-, hdefault⟩⟩
  · cases List.mem_singleton.mp he
    rw [domainRule_stored hp hr.1 hr.2] at hrule
    cases hrule
    exact hm
  · cases he
  · refine absurd hdefault.symm ?_
    rw [default_loaded, hf, if_neg hne]
    exact hfr

theorem spells_of_plain {f : Bytes} {dns : Answers} (hp : trimSpace p = p ∧ p ≠ [])
    (hr : trimSpace r = r ∧ r ≠ []) (hf : trimSpace f = f) (hne : f ≠ []) (hfr : f ≠ r)
    (hplain : wildcardMark.isPrefixOf p = false)
    (h : resolveRoute d dns (some (loadRoutes d ⟨[(p, r)], [], some f⟩)) p = r) :
    SpellsItself d p r := by
  have hw : wildcardMark.isPrefixOf (toLower (trimSpace p)) = false := by
    rw [isPrefixOf_toLower, hp.1, hplain]
  simp only [SpellsItself, hw, Bool.false_eq_true, ↓reduceIte]
  by_cases hblank : spelledHost p = []
  · rw [resolveRoute_blank hblank] at h
    exact Or.inr ⟨hblank, h.symm⟩
  · left
    rcases patternMatches_of_answer hp hr hf hne hfr hblank h with ⟨hname, -⟩ | ⟨suffix, hs, -⟩
    · -- the name is the whole pattern, so neither a port nor a dot was taken off
      have hle : (toLower (trimSpace p)).length ≤ (spelledHost p).length := by
        have hpre := (trimSuffix_begins (spelledHost p) [dot]).length_le
        rwa [← hname] at hpre
      have hshort : (spelledHost p).length ≤ (withoutPort (toLower (trimSpace p))).length :=
        (trimSuffix_begins _ _).length_le
      have hport : splitHostPort (toLower (trimSpace p)) = none := by
        by_contra hsome
        have hlt := withoutPort_shorter hsome
        omega
      refine ⟨hport, fun hlast => ?_⟩
      obtain ⟨y, hy⟩ := List.getLast?_eq_some_iff.mp hlast
      rw [spelledHost, withoutPort_none hport, hy, trimSuffix_append, List.length_append] at hle
      exact Nat.lt_irrefl _ hle
    · rw [wildcardSuffix, if_neg (by simp [hw])] at hs
      cases hs

/-- The label `x`. -/
def xLabel : Bytes := [0x78]

theorem hostLabel_x : HostLabel xLabel :=
  ⟨by decide, by decide, by unfold PortText; decide +kernel, by unfold NoBlank; decide +kernel⟩

theorem spells_of_wildcard {f zone : Bytes} {dns : Answers}
    (hp : trimSpace (wildcardMark ++ zone) = wildcardMark ++ zone)
    (hr : trimSpace r = r ∧ r ≠ []) (hf : trimSpace f = f) (hne : f ≠ []) (hfr : f ≠ r)
    (h : resolveRoute d dns (some (loadRoutes d ⟨[(wildcardMark ++ zone, r)], [], some f⟩))
      (xLabel ++ dot :: zone) = r) : SpellsItself d (wildcardMark ++ zone) r := by
  have hpattern : toLower (trimSpace (wildcardMark ++ zone)) = wildcardMark ++ toLower zone := by
    rw [hp, toLower_mark]
  have hmark : wildcardMark.isPrefixOf (wildcardMark ++ toLower zone) = true :=
    List.isPrefixOf_iff_prefix.mpr (List.prefix_append _ _)
  have hdrop : (wildcardMark ++ toLower zone).drop 2 = toLower zone := rfl
  have hlow : toLower (trimSpace (xLabel ++ dot :: zone)) = xLabel ++ dot :: toLower zone := by
    rw [trimSpace_under hostLabel_x hp, toLower_under, show toLower xLabel = xLabel by decide]
  -- with a port or without, the text still begins with the label
  have hhead : ∃ rest, withoutPort (xLabel ++ dot :: toLower zone) = 0x78 :: rest ∧
      (HasPort (toLower zone) → colon ∉ withoutPort (xLabel ++ dot :: toLower zone)) := by
    have hplain := @splitHostPort_under xLabel (toLower zone) (by decide) hostLabel_x.noPort
    cases hs : splitHostPort (xLabel ++ dot :: toLower zone) with
    | none =>
      refine ⟨dot :: toLower zone, by rw [withoutPort_none hs]; rfl, fun hport => ?_⟩
      exact absurd hport (hplain.mp hs)
    | some q =>
      obtain ⟨host, port⟩ := q
      obtain ⟨htext, hcolon⟩ := splitHostPort_unbracketed (by simp [xLabel, openBracket]) hs
      rw [withoutPort, hs]
      cases host with
      | nil => cases htext
      | cons b host =>
        have hb := (List.cons.inj htext).1
        exact ⟨host, by rw [← hb], fun _ => hcolon⟩
  obtain ⟨rest, hrest, hcolon⟩ := hhead
  have hspelled : spelledHost (xLabel ++ dot :: zone) = trimSuffix (0x78 :: rest) [dot] := by
    rw [spelledHost, hlow, hrest]
  have hblank : spelledHost (xLabel ++ dot :: zone) ≠ [] := by
    rw [hspelled]
    exact trimSuffix_cons_ne_nil (by decide) rest
  have hm := patternMatches_of_answer ⟨hp, by simp [wildcardMark]⟩ hr hf hne hfr hblank h
  rw [hpattern] at hm
  simp only [SpellsItself, hpattern, hmark, hdrop, ↓reduceIte]
  rcases hm with ⟨-, hplain⟩ | ⟨suffix, hs, hbelow⟩
  · rw [hmark] at hplain
    cases hplain
  · obtain ⟨hz, rfl⟩ := wildcardSuffix_mark.mp hs
    refine ⟨hz, fun hport => ?_⟩
    have hzone := suffix_of_labels_suffix hbelow.1
    have hpre : trimSuffix (spelledHost (xLabel ++ dot :: zone)) [dot] <+:
        withoutPort (xLabel ++ dot :: toLower zone) := by
      rw [hspelled, hrest]
      exact (trimSuffix_begins _ _).trans (trimSuffix_begins _ _)
    refine hcolon hport (hpre.subset (hzone.subset ?_))
    exact List.one_le_count_iff.mp (Nat.le_of_eq hport.1.symm)

/-- A stored rule matches what it names exactly when the lookup leaves its name alone:
a zone without empty labels and ports, a plain pattern without port and trailing dot.
One of only these matches for the direct route. -/
theorem rule_matches_iff (d p r : Bytes) (h : Stores d p r) :
    RuleMatches d p r ↔ SpellsItself d p r := by
  obtain ⟨rs, s, v, hrun, hp, hv, hr⟩ := h
  obtain ⟨hkey, hvalue⟩ := (formed_run hrun).domains p v hp
  have hvr : v = r := by rw [← hv, hvalue.trimmed]
  subst hvr
  refine ⟨fun hm => ?_, matches_of_spells hr⟩
  obtain ⟨rs', s', f, hrun', hdomains, hcidrs, hdefault, hf, hne, hfr⟩ :=
    @exists_sole d p v hkey hvalue
  have hreads : Reads s' ⟨[(p, v)], [], some f⟩ :=
    ⟨by rw [hdomains], by rw [hcidrs], hdefault.symm⟩
  have honly : ∀ k w, (k, w) ∈ s'.domains → k = p := by
    intro k w hk
    rw [hdomains] at hk
    exact congrArg Prod.fst (List.mem_singleton.mp hk)
  obtain ⟨hplain, hwild⟩ := hm rs' s' _ v (fun _ => none) hrun' hreads (by rw [hdomains]; simp) hv
    (fun k w hk _ => honly k w hk)
  cases hw : wildcardMark.isPrefixOf p with
  | false => exact spells_of_plain hkey.trimmed ⟨hv, hr⟩ hf hne hfr hw (hplain hw)
  | true =>
    obtain ⟨zone, rfl⟩ := List.isPrefixOf_iff_prefix.mp hw
    refine spells_of_wildcard hkey.trimmed.1 ⟨hv, hr⟩ hf hne hfr
      (hwild zone rfl xLabel hostLabel_x ?_ ?_)
    · rintro ⟨k, w, hk, -, hkw, -⟩
      rw [honly k w hk, hw] at hkw
      cases hkw
    · rintro ⟨k, w, suffix, hk, -, hs, hown, -⟩
      rw [honly k w hk] at hs
      exact Nat.lt_irrefl _ (hown suffix hs)

/-- `a.com`. -/
def plainName : Bytes := [0x61, 0x2E, 0x63, 0x6F, 0x6D]

/-- `a.com.`. -/
def dottedName : Bytes := plainName ++ [dot]

/-- After the request for `a.com`. -/
def plainStore : Store := ⟨[], 1, [(plainName, directRoute)], [], some directRoute⟩

theorem plain_rule_matches : RuleMatches directRoute plainName directRoute :=
  (rule_matches_iff directRoute plainName directRoute
    ⟨[.createDomains [plainName] .null], plainStore, directRoute, by decide +kernel, by decide,
      by decide +kernel, by decide⟩).mpr
    (by unfold SpellsItself; decide +kernel)

/-- After the requests for the group `g` and for `a.com.` with this group. -/
def dottedStore : Store := ⟨[⟨1, [0x67]⟩], 2, [(dottedName, [0x67])], [], some directRoute⟩

def dottedRun : List Request := [.createGroup (some [0x67]), .createDomains [dottedName] (.pk 1)]

/-- The rule `a.com.` is never found: its host is looked up as `a.com`. -/
theorem dotted_rule_lost : Stores directRoute dottedName [0x67] ∧
    ¬RuleMatches directRoute dottedName [0x67] := by
  have hrun : run (step directRoute) (installed directRoute) dottedRun = some dottedStore := by
    decide +kernel
  have hr : trimSpace [0x67] = [0x67] ∧ ([0x67] : Bytes) ≠ [] := by decide +kernel
  have hp : trimSpace dottedName = dottedName ∧ dottedName ≠ [] := by decide +kernel
  have honly : ∀ k w, (k, w) ∈ dottedStore.domains → k = dottedName := fun k w hk =>
    congrArg Prod.fst (List.mem_singleton.mp hk)
  refine ⟨⟨dottedRun, dottedStore, [0x67], hrun, by decide, hr⟩, fun h => ?_⟩
  have hanswer := (h dottedRun dottedStore ⟨dottedStore.domains, [], some directRoute⟩ [0x67]
    (fun _ => none) hrun ⟨.refl _, .refl _, rfl⟩ (by decide) hr.1
    (fun k w hk _ => honly k w hk)).1 (by decide)
  have hspelled : spelledHost dottedName = plainName := by decide +kernel
  have hm := patternMatches_of_answer hp hr trimSpace_direct (by decide) (by decide)
    (by rw [hspelled]; decide) hanswer
  have hpattern : toLower (trimSpace dottedName) = dottedName ∧
      wildcardSuffix (toLower (trimSpace dottedName)) = none := by decide +kernel
  rcases hm with ⟨hname, -⟩ | ⟨suffix, hsuffix, -⟩
  · rw [hpattern.1, hspelled] at hname
    exact absurd hname (by decide)
  · rw [hpattern.2] at hsuffix
    cases hsuffix

end SplitProxy.Admin
