import SplitProxy.DirectAddresses

/-!
# The order of a DNS answer

`resolveCIDRRoute` keeps the first of the longest matches, so the order of the
addresses shows where two matches of that length lead to different routes, and
nowhere else.
-/
namespace SplitProxy.Direct

open GoText NetIP Routing HTTPConnect

/-- A rule of so many bits covers the address. -/
def Matches (cidrs : CIDRTrie) (a : Addr) (route : Route) (bits : Nat) : Prop :=
  ∃ six as, a.unmap.path six = some as ∧ bits ≤ as.length ∧
    (cidrs.tree six).find (as.take bits) = some route

/-- No rule that covers an address of the answer is longer than this one, which
covers one of them. -/
structure LongestAmong (cidrs : CIDRTrie) (ips : List Addr) (route : Route) (bits : Nat) : Prop where
  covers : ∃ a ∈ ips, Matches cidrs a route bits
  longest : ∀ a ∈ ips, ∀ r n, Matches cidrs a r n → n ≤ bits

/-- The longest matches of the answer all lead to one route. -/
def Unanimous (cidrs : CIDRTrie) (ips : List Addr) : Prop :=
  ∀ route route' bits, LongestAmong cidrs ips route bits → LongestAmong cidrs ips route' bits →
    route = route'

variable {routeDirect route : Route} {cidrs : CIDRTrie} {cache : RouteCache} {a : Addr}
  {ips ips' : List Addr} {bits : Nat}

/-- An address has one path, in the trie of its family. -/
theorem path_unique {six six' : Bool} {as as' : List Bool} (h : a.path six = some as)
    (h' : a.path six' = some as') : six = six' ∧ as = as' := by
  cases a <;> cases six <;> cases six' <;> simp_all [Addr.path]

theorem matches_iff {six : Bool} {as : List Bool} (h : a.unmap.path six = some as) :
    Matches cidrs a route bits ↔
      bits ≤ as.length ∧ (cidrs.tree six).find (as.take bits) = some route := by
  constructor
  · rintro ⟨six', as', h', hle, hfind⟩
    obtain ⟨rfl, rfl⟩ := path_unique h h'
    exact ⟨hle, hfind⟩
  · rintro ⟨hle, hfind⟩
    exact ⟨six, as, h, hle, hfind⟩

/-- An address without a path is no address, and nothing covers it. -/
theorem no_match (h : a.isValid = false) (route : Route) (bits : Nat) :
    ¬Matches cidrs a route bits := by
  rintro ⟨six, as, hpath, -⟩
  cases a <;> cases six <;> simp_all [Addr.path, Addr.unmap, Addr.isValid]

theorem matchOf_longest {six : Bool} {as : List Bool} (h : a.unmap.path six = some as) :
    matchOf routeDirect cidrs a = (cidrs.tree six).longest as := by
  rw [matchOf, CIDRTrie.lookup_eq routeDirect cidrs h]
  cases (cidrs.tree six).longest as <;> rfl

theorem matchOf_invalid (h : a.isValid = false) : matchOf routeDirect cidrs a = none := by
  rw [matchOf, CIDRTrie.lookup, if_neg (by simp [h])]

/-- The lookup finds the longest rule that covers the address. -/
theorem matchOf_some_iff : matchOf routeDirect cidrs a = some (route, bits) ↔
    Matches cidrs a route bits ∧ ∀ r n, Matches cidrs a r n → n ≤ bits := by
  cases hv : a.isValid with
  | false => simp [matchOf_invalid hv, no_match hv]
  | true =>
    obtain ⟨six, as, has⟩ := path_of_valid hv
    rw [matchOf_longest has, LabelTrie.longest_some, matches_iff has]
    constructor
    · intro h
      refine ⟨⟨h.le, h.stored⟩, fun r n hr => ?_⟩
      obtain ⟨hle, hfind⟩ := (matches_iff has).mp hr
      by_contra hlt
      rw [h.maximal n (by omega) hle] at hfind
      cases hfind
    · rintro ⟨⟨hle, hfind⟩, hmax⟩
      refine ⟨hle, hfind, fun m hlt hm => ?_⟩
      cases hstored : (cidrs.tree six).find (as.take m) with
      | none => rfl
      | some r =>
        have := hmax r m ((matches_iff has).mpr ⟨hm, hstored⟩)
        omega

theorem matchOf_none_iff :
    matchOf routeDirect cidrs a = none ↔ ∀ r n, ¬Matches cidrs a r n := by
  cases hv : a.isValid with
  | false => simp [matchOf_invalid hv, no_match hv]
  | true =>
    obtain ⟨six, as, has⟩ := path_of_valid hv
    rw [matchOf_longest has, LabelTrie.longest_none]
    simp only [matches_iff has, not_and]
    constructor
    · intro h r n hle hfind
      rw [h n hle] at hfind
      cases hfind
    · intro h n hle
      exact Option.eq_none_iff_forall_ne_some.mpr fun r => h r n hle

/-! ## Answers in another order -/

/-- Longest among the rules is longest among what the lookups find. -/
theorem longestAmong_iff (routeDirect : Route) : LongestAmong cidrs ips route bits ↔
    (∃ a ∈ ips, matchOf routeDirect cidrs a = some (route, bits)) ∧
      ∀ a ∈ ips, ∀ m ∈ matchOf routeDirect cidrs a, m.2 ≤ bits := by
  constructor
  · rintro ⟨⟨a, ha, hm⟩, hlongest⟩
    refine ⟨⟨a, ha, matchOf_some_iff.mpr ⟨hm, hlongest a ha⟩⟩, fun b hb m hmatch => ?_⟩
    exact hlongest b hb m.1 m.2 (matchOf_some_iff.mp hmatch).1
  · rintro ⟨⟨a, ha, hm⟩, hlongest⟩
    refine ⟨⟨a, ha, (matchOf_some_iff.mp hm).1⟩, fun b hb r n hr => ?_⟩
    cases hmatch : matchOf routeDirect cidrs b with
    | none => exact absurd hr (matchOf_none_iff.mp hmatch r n)
    | some m =>
      have hn := (matchOf_some_iff.mp hmatch).2 r n hr
      have hm := hlongest b hb m hmatch
      omega

theorem LongestAmong.perm (h : LongestAmong cidrs ips route bits) (hp : ips.Perm ips') :
    LongestAmong cidrs ips' route bits := by
  obtain ⟨⟨a, ha, hm⟩, hlongest⟩ := h
  exact ⟨⟨a, hp.mem_iff.mp ha, hm⟩, fun b hb => hlongest b (hp.mem_iff.mpr hb)⟩

/-- Two longest matches are equally long. -/
theorem LongestAmong.bits_unique {route' : Route} {bits' : Nat}
    (h : LongestAmong cidrs ips route bits) (h' : LongestAmong cidrs ips route' bits') :
    bits = bits' := by
  obtain ⟨a, ha, hm⟩ := h.covers
  obtain ⟨b, hb, hm'⟩ := h'.covers
  have hle := h'.longest a ha route bits hm
  have hge := h.longest b hb route' bits' hm'
  omega

/-- The route and whether there is one, for an answer. -/
def answeredRoute (routeDirect : Route) (cache : RouteCache) (host : Bytes) (ips : List Addr) :
    Option Route := resolveCIDRRoute routeDirect (fun _ => some ips) cache host

theorem answeredRoute_some {host : Bytes} : answeredRoute routeDirect cache host ips = some route ↔
    ∃ bits, FirstLongest (matchOf routeDirect cache.cidrs) ips route bits := by
  simp only [answeredRoute, resolveCIDRRoute, Option.map_eq_some_iff, Prod.exists, bestOf_some_iff]
  constructor
  · rintro ⟨r, bits, ⟨hnone, -⟩ | ⟨hfirst, -⟩, rfl⟩
    · cases hnone
    · exact ⟨bits, hfirst⟩
  · rintro ⟨bits, hfirst⟩
    exact ⟨route, bits, Or.inr ⟨hfirst, by simp⟩, rfl⟩

theorem answeredRoute_none {host : Bytes} : answeredRoute routeDirect cache host ips = none ↔
    ∀ a ∈ ips, ∀ r n, ¬Matches cache.cidrs a r n := by
  simp only [answeredRoute, resolveCIDRRoute, Option.map_eq_none_iff, bestOf_none_iff, true_and,
    matchOf_none_iff]

theorem FirstLongest.among (h : FirstLongest (matchOf routeDirect cidrs) ips route bits) :
    LongestAmong cidrs ips route bits := by
  obtain ⟨before, a, after, rfl, hm, hbefore, hafter⟩ := h
  refine (longestAmong_iff routeDirect).mpr ⟨⟨a, by simp, hm⟩, fun b hb m hmatch => ?_⟩
  rcases List.mem_append.mp hb with hb | hb
  · exact Nat.le_of_lt (hbefore b hb m hmatch)
  · rcases List.mem_cons.mp hb with rfl | hb
    · rw [hm] at hmatch
      cases hmatch
      exact Nat.le_refl bits
    · exact hafter b hb m hmatch

/-- Any longest match decides once its address comes first. -/
theorem LongestAmong.moved_front (h : LongestAmong cache.cidrs ips route bits) (routeDirect : Route)
    (host : Bytes) :
    ∃ ips', ips.Perm ips' ∧ answeredRoute routeDirect cache host ips' = some route := by
  obtain ⟨⟨a, ha, hm⟩, hlongest⟩ := (longestAmong_iff routeDirect).mp h
  obtain ⟨before, after, rfl⟩ := List.append_of_mem ha
  refine ⟨a :: (before ++ after), List.perm_middle, answeredRoute_some.mpr ⟨bits, ?_⟩⟩
  refine ⟨[], a, before ++ after, rfl, hm, by simp, fun b hb => hlongest b ?_⟩
  exact List.perm_middle.mem_iff.mpr (List.mem_cons_of_mem a hb)

/-- In whatever order the addresses come, a route is found or not, and one that is
found belongs to a match of the greatest length among all of them, the first such. The
route is the same in every order exactly if the matches of that length lead to one. -/
theorem resolveCIDRRoute_order (routeDirect : Route) (cache : RouteCache) (host : Bytes)
    (ips : List Addr) :
    (∀ ips', ips.Perm ips' →
      (answeredRoute routeDirect cache host ips').isSome =
          (answeredRoute routeDirect cache host ips).isSome ∧
        ∀ route, answeredRoute routeDirect cache host ips' = some route →
          ∃ bits, FirstLongest (matchOf routeDirect cache.cidrs) ips' route bits ∧
            LongestAmong cache.cidrs ips' route bits) ∧
      ((∀ ips', ips.Perm ips' →
          answeredRoute routeDirect cache host ips' = answeredRoute routeDirect cache host ips) ↔
        Unanimous cache.cidrs ips) := by
  have hfound : ∀ ips', ips.Perm ips' → (answeredRoute routeDirect cache host ips' = none ↔
      answeredRoute routeDirect cache host ips = none) := by
    intro ips' hp
    rw [answeredRoute_none, answeredRoute_none]
    simp only [hp.mem_iff]
  refine ⟨fun ips' hp => ⟨?_, fun route hroute => ?_⟩, ?_, ?_⟩
  · have hnone := hfound ips' hp
    rw [← Option.isNone_iff_eq_none, ← Option.isNone_iff_eq_none] at hnone
    rw [← Option.not_isNone, ← Option.not_isNone, Bool.eq_iff_iff.mpr hnone]
  · obtain ⟨bits, hfirst⟩ := answeredRoute_some.mp hroute
    exact ⟨bits, hfirst, hfirst.among⟩
  · intro hsame route route' bits hroute hroute'
    obtain ⟨ips₁, hp₁, hfirst₁⟩ := hroute.moved_front routeDirect host
    obtain ⟨ips₂, hp₂, hfirst₂⟩ := hroute'.moved_front routeDirect host
    rw [hsame ips₁ hp₁, ← hsame ips₂ hp₂, hfirst₂] at hfirst₁
    exact (Option.some.inj hfirst₁).symm
  · intro hone ips' hp
    cases hroute : answeredRoute routeDirect cache host ips with
    | none => exact (hfound ips' hp).mpr hroute
    | some route =>
      cases hroute' : answeredRoute routeDirect cache host ips' with
      | none =>
        rw [(hfound ips' hp).mp hroute'] at hroute
        cases hroute
      | some route' =>
        obtain ⟨bits, hfirst⟩ := answeredRoute_some.mp hroute
        obtain ⟨bits', hfirst'⟩ := answeredRoute_some.mp hroute'
        have hamong := hfirst.among
        have hamong' := hfirst'.among.perm hp.symm
        rw [hamong'.bits_unique hamong] at hamong'
        rw [hone route' route bits hamong' hamong]

/-- `8.8.8.0/24` goes direct and `1.1.1.0/24` to a group. -/
def twoRules : RouteCache :=
  ⟨fun _ => none, .nil, loadCIDRs [(prefixFrom (.v4 0x08080800) 24, ascii "direct"),
    (prefixFrom (.v4 0x01010100) 24, ascii "group")], ascii "default"⟩

/-- `a.com` is `8.8.8.8` and `1.1.1.1`, or the other way round. -/
theorem rotated_answer_reroutes :
    [Addr.v4 0x08080808, .v4 0x01010101].Perm [.v4 0x01010101, .v4 0x08080808] ∧
      answeredRoute (ascii "direct") twoRules comName [.v4 0x08080808, .v4 0x01010101] =
        some (ascii "direct") ∧
      answeredRoute (ascii "direct") twoRules comName [.v4 0x01010101, .v4 0x08080808] =
        some (ascii "group") :=
  ⟨.swap _ _ _, by decide +kernel, by decide +kernel⟩

end SplitProxy.Direct
