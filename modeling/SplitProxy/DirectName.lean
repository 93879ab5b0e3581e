import SplitProxy.DecidingRule

/-!
# The name of the direct route

`worker_group` 0 is written as the constant `DIRECT_ROUTE` for domains and CIDRs
and as `DEFAULT_GROUP_NAME` for the default route, and the listings and the proxy
compare with one or the other. The state carries what each rule was last set to.
-/
namespace SplitProxy.Admin

open Runs GoText SyncMap Routing

/-- The tables, and the group each rule was last set to, none for 0. -/
structure Marked where
  store : Store
  domainGroup : Bytes → Option Nat
  cidrGroup : Bytes → Option Nat
  defaultGroup : Option Nat

def setFor (keys : List Bytes) (g : Option WorkerGroup) (groups : Bytes → Option Nat) (k : Bytes) :
    Option Nat :=
  if k ∈ keys then g.map WorkerGroup.pk else groups k

/-- What a request sets the default route to. -/
def defaultSetting : Request → Option Nat
  | .updateDefault (some n) => if n = 0 then none else some n
  | _ => none

def Marked.after (m : Marked) (r : Request) (c : Change) : Marked where
  store := apply m.store c
  domainGroup :=
    match c with
    | .setDomains patterns g => setFor patterns g m.domainGroup
    | _ => m.domainGroup
  cidrGroup :=
    match c with
    | .setCIDRs cidrs g => setFor cidrs g m.cidrGroup
    | _ => m.cidrGroup
  defaultGroup :=
    match c with
    | .setDefault _ => defaultSetting r
    | _ => m.defaultGroup

def markedStep (d : Bytes) (m : Marked) (r : Request) : Option Marked :=
  some (m.after r (handle d m.store r).2)

def markedInstalled (d : Bytes) : Marked := ⟨installed d, fun _ => none, fun _ => none, none⟩

/-- The marks change nothing. -/
theorem markedStep_store (d : Bytes) (m : Marked) (r : Request) :
    (markedStep d m r).map Marked.store = step d m.store r := rfl

/-! ## Agreement -/

/-- What a rule was set to, the group the listing shows and the route the proxy
has for it, if it has one, mean the same. -/
structure RuleAgrees (d : Bytes) (groups : List WorkerGroup) (set listed : Option Nat)
    (loaded : Option Route) : Prop where
  direct : set = none → loaded = some d
  group : ∀ g ∈ groups, set = some g.pk → g.groupName ≠ [] →
    loaded = some g.groupName ∧ g.groupName ≠ d
  listing : listed = some 0 ↔ loaded = some d

structure RulesAgree (d : Bytes) (m : Marked) : Prop where
  domains : ∀ k v, (k, v) ∈ m.store.domains →
    RuleAgrees d m.store.groups (m.domainGroup k) (listedGroup m.store v) ((domainRule (k, v)).map Prod.snd)
  cidrs : ∀ k v, (k, v) ∈ m.store.cidrs →
    RuleAgrees d m.store.groups (m.cidrGroup k) (listedGroup m.store v) ((cidrRule (k, v)).map Prod.snd)
  default : RuleAgrees d m.store.groups m.defaultGroup (getDefaultRoute d m.store)
    (some (loadDefault d m.store.defaultRoute))

/-- An answer means what a rule was set to. -/
structure Meant (d : Bytes) (groups : List WorkerGroup) (set : Option Nat) (answer : Route) :
    Prop where
  direct : set = none → answer = d
  group : ∀ g ∈ groups, set = some g.pk → g.groupName ≠ [] → answer = g.groupName ∧ answer ≠ d

/-- The answer for a name means what every rule that is the best match was set to. -/
structure AnswerAgrees (d : Bytes) (m : Marked) (x : Stored) (dns : Answers) (name : Bytes)
    (answer : Route) : Prop where
  domain : ∀ k v pattern route, (k, v) ∈ m.store.domains → domainRule (k, v) = some (pattern, route) →
    DecidingDomain x name pattern → Meant d m.store.groups (m.domainGroup k) answer
  cidr : ∀ k v p route, (k, v) ∈ m.store.cidrs → cidrRule (k, v) = some (p, route) →
    DecidingCIDR x dns name p → Meant d m.store.groups (m.cidrGroup k) answer
  default : Undecided x dns name → Meant d m.store.groups m.defaultGroup answer

/-- All rules agree, no rule overwrites another one in a load, and `ResolveRoute` answers
by what the rules were set to. -/
structure Agreement (d : Bytes) (m : Marked) : Prop where
  rules : RulesAgree d m
  loads : OneCache d m.store
  answers : ∀ x, Reads m.store x → ∀ (dns : Answers) (host : Bytes), spelledHost host ≠ [] →
    AnswerAgrees d m x dns (trimSuffix (spelledHost host) [dot])
      (resolveRoute d dns (some (loadRoutes d x)) host)

/-- The constant is written only when it is the setting, a CIDR for the proxy is
one it parses, the default route gets no blank name, and a group gets no other
name than its rules have in Redis, unless a blank one. -/
def Keeps (d : Bytes) (m : Marked) : Change → Prop
  | .renameGroup pk name => name = [] ∨
    (∀ k v, (k, v) ∈ m.store.domains → m.domainGroup k = some pk → v = name) ∧
    (∀ k v, (k, v) ∈ m.store.cidrs → m.cidrGroup k = some pk →
      v = name ∧ (parsePrefix (trimSpace k)).isSome = true) ∧
    (m.defaultGroup = some pk → m.store.defaultRoute = some name)
  | .setDomains _ g => routeName g = directRoute → d = directRoute
  | .setCIDRs cidrs g => (routeName g = directRoute → d = directRoute) ∧
    (routeName g ≠ [] → ∀ c ∈ cidrs, (parsePrefix (trimSpace c)).isSome = true)
  | .setDefault name => name ≠ []
  | _ => True

def OneName (d : Bytes) (m : Marked) (r : Request) : Prop := Keeps d m (handle d m.store r).2

variable {d : Bytes} {s t : Store} {m : Marked} {r : Request}

/-! ## Texts -/

/-- A stripped text begins and ends in no white space. -/
theorem strip_done (s : Bytes) : ∀ w ∈ pySpaces, ¬w <+: strip s ∧ ¬w <:+ strip s := by
  have hne : ∀ w ∈ pySpaces, w ≠ [] := by decide
  have hrne : ∀ w ∈ pySpaces.map List.reverse, w ≠ [] := by decide
  have hl := dropWords_done hne (Nat.le_refl s.length)
  have hr := dropWords_done hrne
    (show (dropWords pySpaces s.length s).reverse.length ≤ (dropWords pySpaces s.length s).length from
      Nat.le_of_eq List.length_reverse)
  have hsuffix := dropWords_suffix (pySpaces.map List.reverse)
    (dropWords pySpaces s.length s).length (dropWords pySpaces s.length s).reverse
  intro w hw
  constructor
  · intro hp
    have hpre : strip s <+: dropWords pySpaces s.length s := by
      rw [← List.reverse_suffix]
      simpa only [strip, List.reverse_reverse] using hsuffix
    exact hl w hw (hp.trans hpre)
  · intro hs
    refine hr w.reverse (List.mem_map_of_mem hw) ?_
    simpa only [strip, List.reverse_reverse] using List.reverse_prefix.mpr hs

theorem trimSpace_strip (s : Bytes) : trimSpace (strip s) = strip s := by
  have hsub : ∀ w ∈ spaces, w ∈ pySpaces := fun w hw => List.mem_append_left _ hw
  apply trimSpace_id
  · exact fun w hw => (strip_done s w (hsub w hw)).1
  · exact fun w hw => (strip_done s w (hsub w hw)).2

theorem strip_strip (s : Bytes) : strip (strip s) = strip s := by
  have hdone := strip_done s
  have hr : ∀ w ∈ pySpaces.map List.reverse, ¬w <+: (strip s).reverse := by
    intro w hw hpre
    obtain ⟨v, hv, rfl⟩ := List.mem_map.mp hw
    exact (hdone v hv).2 (List.reverse_prefix.mp hpre)
  generalize strip s = x at *
  rw [strip, dropWords_id fun w hw => (hdone w hw).1, dropWords_id hr, List.reverse_reverse]

theorem charField_some {n : Nat} {text key : Bytes} (h : charField n text = some key) :
    trimSpace key = key ∧ key ≠ [] := by
  simp only [charField, Option.ite_none_left_eq_some, Option.some.injEq] at h
  obtain ⟨hne, -, -, rfl⟩ := h
  exact ⟨trimSpace_strip text, hne⟩

theorem mapM_charField {n : Nat} {texts keys : List Bytes} (h : texts.mapM (charField n) = some keys) :
    ∀ k ∈ keys, trimSpace k = k ∧ k ≠ [] := by
  intro k hk
  have hall := mapM_forall₂ h
  clear h
  induction hall with
  | nil => cases hk
  | cons hf _ ih =>
    rcases List.mem_cons.mp hk with rfl | hk
    · exact charField_some hf
    · exact ih hk

theorem trimSpace_direct : trimSpace directRoute = directRoute := by decide +kernel

/-- A domain under a key of the API is loaded unless its route is blank. -/
theorem domain_loaded {k v : Bytes} (hk : trimSpace k = k ∧ k ≠ []) :
    (domainRule (k, v)).map Prod.snd = if trimSpace v = [] then none else some (trimSpace v) := by
  have hp : toLower (trimSpace k) ≠ [] := by
    rw [hk.1]
    exact toLower_ne_nil hk.2
  by_cases hv : trimSpace v = []
  · simp only [domainRule, hv, or_true, ↓reduceIte, Option.map_none]
  · simp only [domainRule, hp, hv, or_self, ↓reduceIte, Option.map_some]

theorem cidr_loaded (k v : Bytes) : (cidrRule (k, v)).map Prod.snd =
    if trimSpace v = [] ∨ parsePrefix (trimSpace k) = none then none else some (trimSpace v) := by
  by_cases hv : trimSpace v = []
  · simp only [cidrRule, hv, or_true, true_or, ↓reduceIte, Option.map_none]
  · cases hp : parsePrefix (trimSpace k) with
    | none => simp only [cidrRule, hv, hp, or_true, or_false, ↓reduceIte, Option.map_none, ite_self]
    | some p =>
      have hk : trimSpace k ≠ [] := by
        intro hk
        have hnil : parsePrefix [] = none := by decide
        rw [hk, hnil] at hp
        cases hp
      simp only [cidrRule, hk, hv, hp, or_self, reduceCtorEq, ↓reduceIte, Option.map_some]

theorem default_loaded (v : Bytes) :
    loadDefault d (some v) = if trimSpace v = [] then d else trimSpace v := rfl

/-! ## What a request writes -/

/-- What is known of the keys and of the default route a request writes. -/
def Written (d : Bytes) (s : Store) (r : Request) : Change → Prop
  | .setDomains patterns _ => patterns ≠ [] ∧ ∀ k ∈ patterns, trimSpace k = k ∧ k ≠ []
  | .setCIDRs cidrs _ => cidrs ≠ []
  | .setDefault name => defaultSetting r = none ∧ name = d ∨
    ∃ g ∈ s.groups, defaultSetting r = some g.pk ∧ name = g.groupName
  | _ => True

theorem handle_written (d : Bytes) (s : Store) (r : Request) : Written d s r (handle d s r).2 := by
  cases r with
  | createGroup name =>
    simp only [handle, createGroup]
    split <;> trivial
  | updateGroup pk name =>
    simp only [handle, updateGroup]
    split
    · trivial
    · split
      · trivial
      · split <;> trivial
  | deleteGroup pk =>
    simp only [handle, deleteGroup]
    split
    · trivial
    · split <;> trivial
  | createDomains patterns group =>
    simp only [handle, createDomains]
    split
    · trivial
    · trivial
    · trivial
    · trivial
    · rename_i ks g hne hk hg
      exact ⟨hne, mapM_charField hk⟩
  | updateDomain pattern group =>
    simp only [handle, updateDomain]
    split
    · trivial
    · trivial
    · trivial
    · rename_i k g hk hg
      refine ⟨List.cons_ne_nil _ _, fun k' hk' => ?_⟩
      cases List.mem_singleton.mp hk'
      exact charField_some hk
  | deleteDomain pattern =>
    simp only [handle, deleteDomain]
    split <;> trivial
  | createCIDRs cidrs group =>
    simp only [handle, createCIDRs]
    split
    · trivial
    · trivial
    · trivial
    · trivial
    · rename_i ks g hne hk hg
      exact hne
  | updateCIDR cidr group =>
    simp only [handle, updateCIDR]
    split
    · trivial
    · trivial
    · split
      · trivial
      · split
        · exact List.cons_ne_nil _ _
        · trivial
  | deleteCIDR cidr =>
    simp only [handle, deleteCIDR]
    split <;> trivial
  | clearCIDRs => trivial
  | updateDefault group =>
    simp only [handle, updateDefault]
    split
    · trivial
    · rename_i n
      split
      · rename_i hn
        exact Or.inl ⟨if_pos hn, rfl⟩
      · rename_i hn
        split
        · trivial
        · rename_i g hg
          obtain ⟨hmem, hpk⟩ := getGroup_some hg
          exact Or.inr ⟨g, hmem, by rw [hpk]; exact if_neg hn, rfl⟩

/-! ## The invariant -/

/-- What Redis holds for a rule, `direct` when it was set to 0 and else the trimmed
name of some group there was. -/
structure ValueKnown (d : Bytes) (next : Nat) (direct : Bytes) (set : Option Nat) (v : Bytes) :
    Prop where
  direct : set = none → v = direct
  group : ∀ pk, set = some pk → pk < next ∧ trimSpace v = v ∧ v ≠ d

structure Known (d : Bytes) (m : Marked) : Prop where
  rows : Rows d m.store
  next : 0 < m.store.nextPk
  positive : ∀ g ∈ m.store.groups, 0 < g.pk
  trimmed : ∀ g ∈ m.store.groups, trimSpace g.groupName = g.groupName
  keys : ∀ k v, (k, v) ∈ m.store.domains → trimSpace k = k ∧ k ≠ []
  domains : ∀ k v, (k, v) ∈ m.store.domains → ValueKnown d m.store.nextPk directRoute (m.domainGroup k) v
  cidrs : ∀ k v, (k, v) ∈ m.store.cidrs → ValueKnown d m.store.nextPk directRoute (m.cidrGroup k) v
  default : ∃ v, m.store.defaultRoute = some v ∧ ValueKnown d m.store.nextPk d m.defaultGroup v

theorem known_installed (d : Bytes) : Known d (markedInstalled d) where
  rows := rows_installed d
  next := Nat.one_pos
  positive := nofun
  trimmed := nofun
  keys := nofun
  domains := nofun
  cidrs := nofun
  default := ⟨d, rfl, fun _ => rfl, nofun⟩

theorem ValueKnown.le {n n' : Nat} {direct v : Bytes} {set : Option Nat}
    (h : ValueKnown d n direct set v) (hle : n ≤ n') : ValueKnown d n' direct set v := by
  refine ⟨h.direct, fun pk hpk => ?_⟩
  obtain ⟨hlt, htrim, hne⟩ := h.group pk hpk
  exact ⟨Nat.lt_of_lt_of_le hlt hle, htrim, hne⟩

/-- The value a request on domains or CIDRs writes. -/
theorem valueKnown_routeName (hi : Known d m) {g : Option WorkerGroup}
    (hg : ∀ g', g = some g' → g' ∈ m.store.groups) :
    ValueKnown d m.store.nextPk directRoute (g.map WorkerGroup.pk) (routeName g) := by
  cases g with
  | none => exact ⟨fun _ => rfl, nofun⟩
  | some g =>
    refine ⟨nofun, fun pk hpk => ?_⟩
    cases hpk
    have hmem := hg g rfl
    exact ⟨hi.rows.fresh g hmem, hi.trimmed g hmem, hi.rows.other g hmem⟩

theorem setFor_mem {keys : List Bytes} {g : Option WorkerGroup} {groups : Bytes → Option Nat}
    {k : Bytes} (h : k ∈ keys) : setFor keys g groups k = g.map WorkerGroup.pk := if_pos h

theorem setFor_other {keys : List Bytes} {g : Option WorkerGroup} {groups : Bytes → Option Nat}
    {k : Bytes} (h : k ∉ keys) : setFor keys g groups k = groups k := if_neg h

theorem known_after (hd : d ≠ []) (hi : Known d m) {c : Change} (hs : Sound d m.store r c)
    (hw : Written d m.store r c) : Known d (m.after r c) := by
  have hrows := rows_apply hd hi.rows hs
  cases c with
  | none => exact hi
  | addGroup name =>
    obtain ⟨-, ⟨text, rfl⟩, -⟩ := hs
    refine ⟨hrows, Nat.succ_pos _, fun g hg => ?_, fun g hg => ?_, hi.keys, fun k v hkv => ?_,
      fun k v hkv => ?_, ?_⟩
    · rcases List.mem_append.mp hg with hg | hg
      · exact hi.positive g hg
      · cases List.mem_singleton.mp hg
        exact hi.next
    · rcases List.mem_append.mp hg with hg | hg
      · exact hi.trimmed g hg
      · cases List.mem_singleton.mp hg
        exact trimSpace_strip text
    · exact (hi.domains k v hkv).le (Nat.le_succ _)
    · exact (hi.cidrs k v hkv).le (Nat.le_succ _)
    · obtain ⟨v, hv, hk⟩ := hi.default
      exact ⟨v, hv, hk.le (Nat.le_succ _)⟩
  | renameGroup pk name =>
    obtain ⟨⟨text, -, hname⟩, -⟩ := hs
    obtain ⟨-, rfl, -⟩ := groupNameField_valid hd hname
    refine ⟨hrows, hi.next, fun g hg => ?_, fun g hg => ?_, hi.keys,
      fun k v hkv => (hi.domains k v hkv),
      fun k v hkv => (hi.cidrs k v hkv), ?_⟩
    · obtain ⟨g₀, hg₀, rfl⟩ := List.mem_map.mp hg
      rw [rename_pk]
      exact hi.positive g₀ hg₀
    · obtain ⟨g₀, hg₀, rfl⟩ := List.mem_map.mp hg
      by_cases hp : g₀.pk = pk
      · rw [rename_self hp]
        exact trimSpace_strip text
      · rw [rename_other hp]
        exact hi.trimmed g₀ hg₀
    · obtain ⟨v, hv, hk⟩ := hi.default
      exact ⟨v, hv, hk⟩
  | dropGroup pk =>
    refine ⟨hrows, hi.next, fun g hg => hi.positive g (List.mem_filter.mp hg).1,
      fun g hg => hi.trimmed g (List.mem_filter.mp hg).1, hi.keys,
      fun k v hkv => (hi.domains k v hkv),
      fun k v hkv => (hi.cidrs k v hkv), ?_⟩
    obtain ⟨v, hv, hk⟩ := hi.default
    exact ⟨v, hv, hk⟩
  | setDomains patterns g =>
    refine ⟨hrows, hi.next, hi.positive, hi.trimmed, fun k v hkv => ?_, fun k v hkv => ?_, hi.cidrs,
      hi.default⟩
    · rcases mem_of_hsetAll hkv with ⟨hold, -⟩ | ⟨hk, -⟩
      · exact hi.keys k v hold
      · exact hw.2 k hk
    · rcases mem_of_hsetAll hkv with ⟨hold, hk⟩ | ⟨hk, rfl⟩
      · rw [show (m.after r (.setDomains patterns g)).domainGroup k = m.domainGroup k from
          setFor_other hk]
        exact (hi.domains k v hold)
      · rw [show (m.after r (.setDomains patterns g)).domainGroup k = g.map WorkerGroup.pk from
          setFor_mem hk]
        exact (valueKnown_routeName hi hs)
  | dropDomain pattern =>
    exact ⟨hrows, hi.next, hi.positive, hi.trimmed,
      fun k v hkv => hi.keys k v (List.mem_filter.mp hkv).1,
      fun k v hkv => hi.domains k v (List.mem_filter.mp hkv).1, hi.cidrs, hi.default⟩
  | setCIDRs cidrs g =>
    refine ⟨hrows, hi.next, hi.positive, hi.trimmed, hi.keys, hi.domains, fun k v hkv => ?_,
      hi.default⟩
    rcases mem_of_hsetAll hkv with ⟨hold, hk⟩ | ⟨hk, rfl⟩
    · rw [show (m.after r (.setCIDRs cidrs g)).cidrGroup k = m.cidrGroup k from setFor_other hk]
      exact (hi.cidrs k v hold)
    · rw [show (m.after r (.setCIDRs cidrs g)).cidrGroup k = g.map WorkerGroup.pk from
        setFor_mem hk]
      exact (valueKnown_routeName hi hs)
  | dropCIDR cidr =>
    exact ⟨hrows, hi.next, hi.positive, hi.trimmed, hi.keys, hi.domains,
      fun k v hkv => hi.cidrs k v (List.mem_filter.mp hkv).1, hi.default⟩
  | setDefault name =>
    refine ⟨hrows, hi.next, hi.positive, hi.trimmed, hi.keys, hi.domains, hi.cidrs, name, rfl, ?_⟩
    rcases hw with ⟨hset, rfl⟩ | ⟨g, hg, hset, rfl⟩
    · rw [show (m.after r (.setDefault name)).defaultGroup = none from hset]
      exact ⟨fun _ => rfl, nofun⟩
    · rw [show (m.after r (.setDefault g.groupName)).defaultGroup = some g.pk from hset]
      refine ⟨nofun, fun pk hpk => ?_⟩
      cases hpk
      exact ⟨hi.rows.fresh g hg, hi.trimmed g hg, hi.rows.other g hg⟩

/-! ## The listings -/

theorem listed_zero (hp : ∀ g ∈ s.groups, 0 < g.pk) (v : Bytes) :
    listedGroup s v = some 0 ↔ v = directRoute := by
  unfold listedGroup
  by_cases hv : v = directRoute
  · rw [if_pos hv]
    exact ⟨fun _ => hv, fun _ => rfl⟩
  · rw [if_neg hv]
    refine ⟨fun h => ?_, fun h => absurd h hv⟩
    obtain ⟨g, hg, hz⟩ := Option.map_eq_some_iff.mp h
    have hpos := hp g (List.mem_of_find?_eq_some hg)
    omega

theorem default_zero (hd : d ≠ []) (hp : ∀ g ∈ s.groups, 0 < g.pk) {v : Bytes}
    (hv : s.defaultRoute = some v) : getDefaultRoute d s = some 0 ↔ v = d := by
  simp only [getDefaultRoute, hv]
  by_cases hvd : v = d
  · rw [if_neg (hvd ▸ hd), if_pos hvd]
    exact ⟨fun _ => hvd, fun _ => rfl⟩
  · refine ⟨fun h => ?_, fun h => absurd h hvd⟩
    by_cases hn : v = []
    · rw [if_pos hn] at h
      cases h
    · rw [if_neg hn, if_neg hvd] at h
      obtain ⟨g, hg, hz⟩ := Option.map_eq_some_iff.mp h
      have hpos := hp g (List.mem_of_find?_eq_some hg)
      omega

/-! ## Rules that were just set -/

/-- A rule for the constant or a group agrees when the constant is the setting and
the rule is loaded, unless its name is blank. -/
theorem ruleAgrees_set_iff (hi : Known d m) {g : Option WorkerGroup}
    (hg : ∀ g', g = some g' → g' ∈ m.store.groups) {loaded : Option Route}
    (hl : loaded = none ∨ loaded = some (routeName g)) (hblank : routeName g = [] → loaded = none) :
    RuleAgrees d m.store.groups (g.map WorkerGroup.pk) (listedGroup m.store (routeName g)) loaded ↔
      (routeName g = directRoute → d = directRoute) ∧ (routeName g ≠ [] → loaded ≠ none) := by
  have hlisted := listed_zero hi.positive (routeName g)
  constructor
  · intro h
    constructor
    · intro hr
      have hloaded := h.listing.mp (hlisted.mpr hr)
      rcases hl with hl | hl
      · rw [hl] at hloaded
        cases hloaded
      · rw [hl] at hloaded
        exact (Option.some.inj hloaded).symm.trans hr
    · intro hne hnone
      cases g with
      | none =>
        rw [h.direct rfl] at hnone
        cases hnone
      | some g =>
        rw [(h.group g (hg g rfl) rfl hne).1] at hnone
        cases hnone
  · rintro ⟨hdirect, hloaded⟩
    have hsome : routeName g ≠ [] → loaded = some (routeName g) := fun hne =>
      hl.resolve_left (hloaded hne)
    cases g with
    | none =>
      have hd : d = directRoute := hdirect rfl
      have hone : loaded = some d := by
        rw [hd]
        exact hsome (List.cons_ne_nil _ _)
      exact ⟨fun _ => hone, nofun, ⟨fun _ => hone, fun _ => hlisted.mpr rfl⟩⟩
    | some g =>
      have hmem := hg g rfl
      have hother := hi.rows.other g hmem
      refine ⟨nofun, fun g' hg' hpk hne => ?_, ?_⟩
      · have hgg : g = g' := hi.rows.pk g hmem g' hg' (Option.some.inj hpk)
        subst hgg
        exact ⟨hsome hne, hother⟩
      · rw [hlisted]
        constructor
        · intro hr
          exact absurd (hr.trans (hdirect hr).symm) hother
        · intro hloaded
          rcases hl with hl | hl
          · rw [hl] at hloaded
            cases hloaded
          · rw [hl] at hloaded
            exact absurd (Option.some.inj hloaded) hother

theorem trimSpace_routeName (hi : Known d m) {g : Option WorkerGroup}
    (hg : ∀ g', g = some g' → g' ∈ m.store.groups) : trimSpace (routeName g) = routeName g := by
  cases g with
  | none => exact trimSpace_direct
  | some g => exact hi.trimmed g (hg g rfl)

/-- A domain that was just set is loaded unless its name is blank. -/
theorem domain_set (hi : Known d m) {g : Option WorkerGroup}
    (hg : ∀ g', g = some g' → g' ∈ m.store.groups) {k : Bytes} (hk : trimSpace k = k ∧ k ≠ []) :
    (domainRule (k, routeName g)).map Prod.snd =
      if routeName g = [] then none else some (routeName g) := by
  rw [domain_loaded hk, trimSpace_routeName hi hg]

theorem cidr_set (hi : Known d m) {g : Option WorkerGroup}
    (hg : ∀ g', g = some g' → g' ∈ m.store.groups) (k : Bytes) :
    (cidrRule (k, routeName g)).map Prod.snd =
      if routeName g = [] ∨ parsePrefix (trimSpace k) = none then none
      else some (routeName g) := by
  rw [cidr_loaded, trimSpace_routeName hi hg]

theorem domain_set_agrees_iff (hi : Known d m) {g : Option WorkerGroup}
    (hg : ∀ g', g = some g' → g' ∈ m.store.groups) {k : Bytes} (hk : trimSpace k = k ∧ k ≠ []) :
    RuleAgrees d m.store.groups (g.map WorkerGroup.pk) (listedGroup m.store (routeName g))
      ((domainRule (k, routeName g)).map Prod.snd) ↔ (routeName g = directRoute → d = directRoute) := by
  rw [domain_set hi hg hk, ruleAgrees_set_iff hi hg]
  · refine ⟨fun h => h.1, fun h => ⟨h, fun hne => ?_⟩⟩
    rw [if_neg hne]
    exact Option.some_ne_none _
  · by_cases hne : routeName g = []
    · exact Or.inl (if_pos hne)
    · exact Or.inr (if_neg hne)
  · exact fun hnil => if_pos hnil

theorem cidr_set_agrees_iff (hi : Known d m) {g : Option WorkerGroup}
    (hg : ∀ g', g = some g' → g' ∈ m.store.groups) (k : Bytes) :
    RuleAgrees d m.store.groups (g.map WorkerGroup.pk) (listedGroup m.store (routeName g))
        ((cidrRule (k, routeName g)).map Prod.snd) ↔
      (routeName g = directRoute → d = directRoute) ∧
        (routeName g ≠ [] → (parsePrefix (trimSpace k)).isSome = true) := by
  rw [cidr_set hi hg k, ruleAgrees_set_iff hi hg]
  · apply and_congr_right'
    apply imp_congr_right
    intro hne
    cases hp : parsePrefix (trimSpace k) with
    | none => simp only [or_true, ↓reduceIte, ne_eq, not_true_eq_false, Option.isSome_none,
        Bool.false_eq_true]
    | some p => simp only [hne, reduceCtorEq, or_self, ↓reduceIte, ne_eq, not_false_eq_true,
        Option.isSome_some]
  · by_cases hc : routeName g = [] ∨ parsePrefix (trimSpace k) = none
    · exact Or.inl (if_pos hc)
    · exact Or.inr (if_neg hc)
  · exact fun hnil => if_pos (Or.inl hnil)

theorem loadDefault_direct (h : trimSpace d = [] ∨ trimSpace d = d) : loadDefault d (some d) = d := by
  rw [default_loaded]
  split
  · rfl
  · rename_i hne
    exact h.resolve_left hne

/-- A default route that was just set agrees unless its name is blank. -/
theorem default_set_agrees_iff (hd : d ≠ []) (hplain : trimSpace d = [] ∨ trimSpace d = d)
    (hi : Known d m) {set : Option Nat} {name : Bytes} (hname : m.store.defaultRoute = some name)
    (hset : set = none ∧ name = d ∨ ∃ g ∈ m.store.groups, set = some g.pk ∧ name = g.groupName) :
    RuleAgrees d m.store.groups set (getDefaultRoute d m.store)
      (some (loadDefault d m.store.defaultRoute)) ↔ name ≠ [] := by
  have hlisted := default_zero hd hi.positive hname
  rw [hname]
  rcases hset with ⟨rfl, rfl⟩ | ⟨g, hg, rfl, rfl⟩
  · have hloaded := congrArg some (loadDefault_direct hplain)
    exact ⟨fun _ => hd, fun _ => ⟨fun _ => hloaded, nofun,
      ⟨fun _ => hloaded, fun _ => hlisted.mpr rfl⟩⟩⟩
  · have hother := hi.rows.other g hg
    rw [default_loaded, hi.trimmed g hg]
    constructor
    · intro h hnil
      rw [if_pos hnil] at h
      exact hother (hlisted.mp (h.listing.mpr rfl))
    · intro hne
      rw [if_neg hne]
      refine ⟨nofun, fun g' hg' hpk _ => ?_, ?_⟩
      · have hgg : g = g' := hi.rows.pk g hg g' hg' (Option.some.inj hpk)
        subst hgg
        exact ⟨rfl, hother⟩
      · rw [hlisted, Option.some.injEq]

/-! ## Requests on groups -/

/-- The rules set to a group have its name in the proxy. -/
structure Fits (d : Bytes) (m : Marked) (g : WorkerGroup) : Prop where
  domains : ∀ k v, (k, v) ∈ m.store.domains → m.domainGroup k = some g.pk → g.groupName ≠ [] →
    (domainRule (k, v)).map Prod.snd = some g.groupName ∧ g.groupName ≠ d
  cidrs : ∀ k v, (k, v) ∈ m.store.cidrs → m.cidrGroup k = some g.pk → g.groupName ≠ [] →
    (cidrRule (k, v)).map Prod.snd = some g.groupName ∧ g.groupName ≠ d
  default : m.defaultGroup = some g.pk → g.groupName ≠ [] →
    some (loadDefault d m.store.defaultRoute) = some g.groupName ∧ g.groupName ≠ d

theorem RulesAgree.fits (h : RulesAgree d m) {g : WorkerGroup} (hg : g ∈ m.store.groups) : Fits d m g :=
  ⟨fun k v hkv => (h.domains k v hkv).group g hg, fun k v hkv => (h.cidrs k v hkv).group g hg,
    h.default.group g hg⟩

/-- The tables with other groups. -/
def Marked.regroup (m : Marked) (groups : List WorkerGroup) (next : Nat) : Marked :=
  { m with store := { m.store with groups := groups, nextPk := next } }

theorem rulesAgree_regroup (hd : d ≠ []) (hi : Known d m) (hP : RulesAgree d m)
    {groups : List WorkerGroup} {next : Nat} (hpos : ∀ g ∈ groups, 0 < g.pk)
    (hfits : ∀ g ∈ groups, Fits d m g) : RulesAgree d (m.regroup groups next) := by
  have hlisted : ∀ v, listedGroup (m.regroup groups next).store v = some 0 ↔
      listedGroup m.store v = some 0 := by
    intro v
    rw [listed_zero hi.positive, listed_zero hpos]
  obtain ⟨name, hname, -⟩ := hi.default
  have hdefault : getDefaultRoute d (m.regroup groups next).store = some 0 ↔
      getDefaultRoute d m.store = some 0 := by
    rw [default_zero hd hi.positive hname]
    exact default_zero hd hpos hname
  refine ⟨fun k v hkv => ?_, fun k v hkv => ?_, ?_⟩
  · have h := hP.domains k v hkv
    exact ⟨h.direct, fun g hg => (hfits g hg).domains k v hkv, (hlisted v).trans h.listing⟩
  · have h := hP.cidrs k v hkv
    exact ⟨h.direct, fun g hg => (hfits g hg).cidrs k v hkv, (hlisted v).trans h.listing⟩
  · have h := hP.default
    exact ⟨h.direct, fun g hg => (hfits g hg).default, hdefault.trans h.listing⟩

/-- No rule is set to a group that is not there yet. -/
theorem fits_new (hi : Known d m) {g : WorkerGroup} (hg : m.store.nextPk ≤ g.pk) : Fits d m g := by
  constructor
  · intro k v hkv hset
    have hlt := ((hi.domains k v hkv).group g.pk hset).1
    omega
  · intro k v hkv hset
    have hlt := ((hi.cidrs k v hkv).group g.pk hset).1
    omega
  · intro hset
    obtain ⟨v, -, hv⟩ := hi.default
    have hlt := (hv.group g.pk hset).1
    omega

/-- A new name fits exactly when it is blank or the one the rules have. -/
theorem fits_renamed_iff (hi : Known d m) {g : WorkerGroup} (hne : g.groupName ≠ d) :
    Fits d m g ↔ Keeps d m (.renameGroup g.pk g.groupName) := by
  obtain ⟨w, hw, hknown⟩ := hi.default
  by_cases hblank : g.groupName = []
  · exact ⟨fun _ => Or.inl hblank, fun _ => ⟨fun _ _ _ _ h => absurd hblank h,
      fun _ _ _ _ h => absurd hblank h, fun _ h => absurd hblank h⟩⟩
  · constructor
    · intro h
      refine Or.inr ⟨fun k v hkv hset => ?_, fun k v hkv hset => ?_, fun hset => ?_⟩
      · have hl := (h.domains k v hkv hset hblank).1
        rw [domain_loaded (hi.keys k v hkv), ((hi.domains k v hkv).group _ hset).2.1] at hl
        exact Option.some.inj (Option.ite_none_left_eq_some.mp hl).2
      · have hl := (h.cidrs k v hkv hset hblank).1
        rw [cidr_loaded, ((hi.cidrs k v hkv).group _ hset).2.1] at hl
        obtain ⟨hno, hv⟩ := Option.ite_none_left_eq_some.mp hl
        rw [not_or] at hno
        exact ⟨Option.some.inj hv, Option.isSome_iff_ne_none.mpr hno.2⟩
      · have hl := (h.default hset hblank).1
        rw [hw, default_loaded, (hknown.group _ hset).2.1] at hl
        split at hl
        · exact absurd (Option.some.inj hl).symm hne
        · rw [hw, Option.some.inj hl]
    · intro h
      obtain ⟨hdom, hcidr, hdef⟩ := h.resolve_left hblank
      refine ⟨fun k v hkv hset _ => ⟨?_, hne⟩, fun k v hkv hset _ => ⟨?_, hne⟩,
        fun hset _ => ⟨?_, hne⟩⟩
      · have hv := hdom k v hkv hset
        rw [domain_loaded (hi.keys k v hkv), ((hi.domains k v hkv).group _ hset).2.1, hv,
          if_neg hblank]
      · obtain ⟨hv, hp⟩ := hcidr k v hkv hset
        rw [cidr_loaded, ((hi.cidrs k v hkv).group _ hset).2.1, hv,
          if_neg (not_or.mpr ⟨hblank, Option.isSome_iff_ne_none.mp hp⟩)]
      · have hv := hdef hset
        rw [hw] at hv
        cases hv
        rw [hw, default_loaded, (hknown.group _ hset).2.1, if_neg hblank]

/-! ## Every request -/

/-- A request that meets the condition keeps the agreement. -/
theorem rulesAgree_after (hd : d ≠ []) (hplain : trimSpace d = [] ∨ trimSpace d = d)
    (hi : Known d m) (hP : RulesAgree d m) {c : Change} (hs : Sound d m.store r c)
    (hw : Written d m.store r c) (hC : Keeps d m c) : RulesAgree d (m.after r c) := by
  have hi' := known_after hd hi hs hw
  cases c with
  | none => exact hP
  | addGroup name =>
    refine rulesAgree_regroup hd hi hP hi'.positive fun g hg => ?_
    rcases List.mem_append.mp hg with hg | hg
    · exact hP.fits hg
    · cases List.mem_singleton.mp hg
      exact fits_new hi (Nat.le_refl _)
  | renameGroup pk name =>
    refine rulesAgree_regroup hd hi hP hi'.positive fun g hg => ?_
    obtain ⟨g₀, hg₀, rfl⟩ := List.mem_map.mp hg
    by_cases hp : g₀.pk = pk
    · rw [fits_renamed_iff hi (hi'.rows.other _ hg), rename_pk, rename_self hp, hp]
      exact hC
    · rw [rename_other hp]
      exact hP.fits hg₀
  | dropGroup pk =>
    exact rulesAgree_regroup hd hi hP hi'.positive fun g hg => hP.fits (List.mem_filter.mp hg).1
  | setDomains patterns g =>
    refine ⟨fun k v hkv => ?_, hP.cidrs, hP.default⟩
    rcases mem_of_hsetAll hkv with ⟨hold, hk⟩ | ⟨hk, rfl⟩
    · rw [show (m.after r (.setDomains patterns g)).domainGroup k = m.domainGroup k from
        setFor_other hk]
      exact hP.domains k v hold
    · rw [show (m.after r (.setDomains patterns g)).domainGroup k = g.map WorkerGroup.pk from
        setFor_mem hk]
      exact (domain_set_agrees_iff hi' hs (hw.2 k hk)).mpr hC
  | dropDomain pattern =>
    exact ⟨fun k v hkv => hP.domains k v (List.mem_filter.mp hkv).1, hP.cidrs, hP.default⟩
  | setCIDRs cidrs g =>
    refine ⟨hP.domains, fun k v hkv => ?_, hP.default⟩
    rcases mem_of_hsetAll hkv with ⟨hold, hk⟩ | ⟨hk, rfl⟩
    · rw [show (m.after r (.setCIDRs cidrs g)).cidrGroup k = m.cidrGroup k from setFor_other hk]
      exact hP.cidrs k v hold
    · rw [show (m.after r (.setCIDRs cidrs g)).cidrGroup k = g.map WorkerGroup.pk from
        setFor_mem hk]
      exact (cidr_set_agrees_iff hi' hs k).mpr ⟨hC.1, fun hne => hC.2 hne k hk⟩
  | dropCIDR cidr =>
    exact ⟨hP.domains, fun k v hkv => hP.cidrs k v (List.mem_filter.mp hkv).1, hP.default⟩
  | setDefault name =>
    exact ⟨hP.domains, hP.cidrs, (default_set_agrees_iff hd hplain hi' rfl hw).mpr hC⟩

/-- A request that does not meet it breaks the agreement. -/
theorem keeps_of_rulesAgree (hd : d ≠ []) (hplain : trimSpace d = [] ∨ trimSpace d = d)
    (hi : Known d m) {c : Change} (hs : Sound d m.store r c) (hw : Written d m.store r c)
    (hP : RulesAgree d (m.after r c)) : Keeps d m c := by
  have hi' := known_after hd hi hs hw
  cases c with
  | none => trivial
  | addGroup name => trivial
  | renameGroup pk name =>
    obtain ⟨-, g₀, hg₀⟩ := hs
    obtain ⟨hmem, rfl⟩ := getGroup_some hg₀
    have hg : rename g₀.pk name g₀ ∈ (m.after r (.renameGroup g₀.pk name)).store.groups :=
      List.mem_map_of_mem hmem
    have hfits : Fits d m (rename g₀.pk name g₀) :=
      ⟨(hP.fits hg).domains, (hP.fits hg).cidrs, (hP.fits hg).default⟩
    rw [fits_renamed_iff hi (hi'.rows.other _ hg), rename_pk, rename_self rfl] at hfits
    exact hfits
  | dropGroup pk => trivial
  | setDomains patterns g =>
    obtain ⟨hne, hkeys⟩ := hw
    obtain ⟨k, hk⟩ := List.exists_mem_of_ne_nil patterns hne
    have h := hP.domains k _ (mem_hsetAll hk)
    rw [show (m.after r (.setDomains patterns g)).domainGroup k = g.map WorkerGroup.pk from
      setFor_mem hk] at h
    exact (domain_set_agrees_iff hi' hs (hkeys k hk)).mp h
  | dropDomain pattern => trivial
  | setCIDRs cidrs g =>
    have hset : ∀ c ∈ cidrs, (routeName g = directRoute → d = directRoute) ∧
        (routeName g ≠ [] → (parsePrefix (trimSpace c)).isSome = true) := by
      intro c hc
      have h := hP.cidrs c _ (mem_hsetAll hc)
      rw [show (m.after r (.setCIDRs cidrs g)).cidrGroup c = g.map WorkerGroup.pk from
        setFor_mem hc] at h
      exact (cidr_set_agrees_iff hi' hs c).mp h
    obtain ⟨c, hc⟩ := List.exists_mem_of_ne_nil cidrs hw
    exact ⟨(hset c hc).1, fun hne c hc => (hset c hc).2 hne⟩
  | dropCIDR cidr => trivial
  | setDefault name => exact (default_set_agrees_iff hd hplain hi' rfl hw).mp hP.default

theorem rulesAgree_installed (hd : d ≠ []) :
    RulesAgree d (markedInstalled d) ↔ trimSpace d = [] ∨ trimSpace d = d := by
  constructor
  · intro h
    have hloaded := Option.some.inj (h.default.direct rfl)
    rw [show (markedInstalled d).store.defaultRoute = some d from rfl, default_loaded] at hloaded
    by_cases hn : trimSpace d = []
    · exact Or.inl hn
    · rw [if_neg hn] at hloaded
      exact Or.inr hloaded
  · intro h
    exact ⟨nofun, nofun,
      (default_set_agrees_iff hd h (known_installed d) rfl (Or.inl ⟨rfl, rfl⟩)).mpr hd⟩

/-! ## The answers -/

theorem RuleAgrees.meant {groups : List WorkerGroup} {set listed : Option Nat} {answer : Route}
    (h : RuleAgrees d groups set listed (some answer)) : Meant d groups set answer := by
  refine ⟨fun hset => Option.some.inj (h.direct hset), fun g hg hset hne => ?_⟩
  obtain ⟨hname, hother⟩ := h.group g hg hset hne
  cases hname
  exact ⟨rfl, hother⟩

/-- Rules that agree, none of which overwrites another, are answered by. -/
theorem answerAgrees (hP : RulesAgree d m) (hone : OneCache d m.store) {x : Stored}
    (hx : Reads m.store x) (dns : Answers) {host : Bytes} (hhost : spelledHost host ≠ []) :
    AnswerAgrees d m x dns (trimSuffix (spelledHost host) [dot])
      (resolveRoute d dns (some (loadRoutes d x)) host) := by
  have hanswer : resolveRoute d dns (some (loadRoutes d x)) host =
      routeFor d dns (loadRoutes d x) (trimSuffix (spelledHost host) [dot]) := if_neg hhost
  rw [hanswer]
  refine ⟨fun k v pattern route hkv hr hbest => ?_, fun k v p route hkv hr hbest => ?_, fun hno => ?_⟩
  · have hagree : ∀ e ∈ x.domains, ∀ e' ∈ x.domains, DomainsAgree e e' := fun e he e' he' =>
      hone.domains e (hx.domains.mem_iff.mp he) e' (hx.domains.mem_iff.mp he')
    rw [routeFor_domain hagree (hx.domains.mem_iff.mpr hkv) hr hbest]
    have h := hP.domains k v hkv
    rw [hr] at h
    exact h.meant
  · have hagree : ∀ e ∈ x.cidrs, ∀ e' ∈ x.cidrs, CIDRsAgree e e' := fun e he e' he' =>
      hone.cidrs e (hx.cidrs.mem_iff.mp he) e' (hx.cidrs.mem_iff.mp he')
    rw [routeFor_cidr hagree (hx.cidrs.mem_iff.mpr hkv) hr hbest]
    have h := hP.cidrs k v hkv
    rw [hr] at h
    exact h.meant
  · rw [routeFor_undecided hno, hx.defaultRoute]
    exact hP.default.meant

theorem agreement_iff : Agreement d m ↔ RulesAgree d m ∧ OneCache d m.store :=
  ⟨fun h => ⟨h.rules, h.loads⟩, fun h => ⟨h.1, h.2, fun _ hx dns _ hhost =>
    answerAgrees h.1 h.2 hx dns hhost⟩⟩

/-- Panel and proxy agree throughout exactly the runs in which the setting has no
white space around it and every request meets both conditions. -/
theorem agreement_iff_one_name (d : Bytes) (hd : d ≠ []) (rs : List Request) :
    Always (markedStep d) (Agreement d) (markedInstalled d) rs ↔
      (trimSpace d = [] ∨ trimSpace d = d) ∧
        Meets (markedStep d) (fun m r => OneName d m r ∧ WritesAgree d m.store r)
          (markedInstalled d) rs := by
  have hinstalled : Agreement d (markedInstalled d) ↔ trimSpace d = [] ∨ trimSpace d = d := by
    rw [agreement_iff, rulesAgree_installed hd]
    exact and_iff_left (oneCache_iff.mpr (allAgree_installed d))
  have hiff : (trimSpace d = [] ∨ trimSpace d = d) →
      (Always (markedStep d) (Agreement d) (markedInstalled d) rs ↔
        Meets (markedStep d) (fun m r => OneName d m r ∧ WritesAgree d m.store r)
          (markedInstalled d) rs) := by
    intro hplain
    refine @always_iff_meets _ _ (markedStep d) _ (Known d) (Agreement d) ?_ ?_ ?_ _ _
      (known_installed d) (hinstalled.mpr hplain)
    · intro m r t hi h
      cases h
      exact known_after hd hi (handle_sound hd m.store r) (handle_written d m.store r)
    · intro m r t hi hP hC h
      cases h
      exact agreement_iff.mpr ⟨rulesAgree_after hd hplain hi hP.rules (handle_sound hd m.store r)
        (handle_written d m.store r) hC.1,
        oneCache_iff.mpr (allAgree_step (oneCache_iff.mp hP.loads) hC.2 rfl)⟩
    · intro m r hi _ hC
      refine ⟨_, rfl, fun hP => hC ⟨?_, writesAgree_of_step rfl (oneCache_iff.mp hP.loads)⟩⟩
      exact keeps_of_rulesAgree hd hplain hi (handle_sound hd m.store r)
        (handle_written d m.store r) hP.rules
  constructor
  · intro h
    have hplain := hinstalled.mp (h [] rs _ rfl rfl)
    exact ⟨hplain, (hiff hplain).mp h⟩
  · exact fun h => (hiff h.1).mpr h.2

/-- The rule `a.b` is set to 0, then the default route to a group. -/
def directRun : List Request :=
  [.createGroup (some [0x65, 0x75]), .createDomains [[0x61, 0x2E, 0x62]] .null,
   .updateDefault (some 1)]

theorem agreement_direct :
    Always (markedStep directRoute) (Agreement directRoute) (markedInstalled directRoute) directRun := by
  refine (agreement_iff_one_name directRoute (by decide) directRun).mpr
    ⟨Or.inr trimSpace_direct, ⟨trivial, trivial⟩, fun m hm => ?_⟩
  cases hm
  refine ⟨⟨fun _ => rfl, fun k _ e he => ?_⟩, fun m hm => ?_⟩
  · cases he
  · cases hm
    exact ⟨⟨List.cons_ne_nil _ _, trivial⟩, fun _ _ => trivial⟩

/-- `DEFAULT_GROUP_NAME` is `local`. -/
def localName : Bytes := [0x6C, 0x6F, 0x63, 0x61, 0x6C]

/-- The rule `a.b` set to 0 sends its host to a group `direct` that does not exist. -/
theorem local_not_direct : ∃ m, run (markedStep localName) (markedInstalled localName)
      [.createDomains [[0x61, 0x2E, 0x62]] .null] = some m ∧ ¬Agreement localName m ∧
    listedGroup m.store directRoute = some 0 ∧
    resolveRoute localName (fun _ => none)
      (some (loadRoutes localName ⟨m.store.domains, m.store.cidrs, m.store.defaultRoute⟩))
      [0x61, 0x2E, 0x62] = directRoute := by
  refine ⟨_, rfl, fun h => ?_, by decide +kernel, by decide +kernel⟩
  have hloaded := (h.rules.domains [0x61, 0x2E, 0x62] directRoute (by decide +kernel)).direct rfl
  exact absurd hloaded (by decide +kernel)

end SplitProxy.Admin
