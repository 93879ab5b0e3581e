import Mathlib.Data.List.TakeWhile
import SplitProxy.RouteTries

/-!
# What a wildcard rule changes

A lookup against the history of insertions. For a host without empty labels the
answer is that of the most specific rule. For any other host the loop ends
without a match once it comes to the empty label, but keeps its match when it
runs out of nodes before.
-/
namespace SplitProxy.Routing

/-! ## Rules that are not taken -/

theorem loadWildcards_append (rules more : List (Bytes × Route)) :
    loadWildcards (rules ++ more) =
      more.foldl (fun t r => insertWildcard t r.1 r.2) (loadWildcards rules) := by
  rw [loadWildcards, List.foldl_append]
  rfl

/-- Tries that store the same go on storing the same. -/
theorem find_foldl_congr {t u : DomainTrie} (h : ∀ q, t.find q = u.find q)
    (rules : List (Bytes × Route)) (q : List Bytes) :
    (rules.foldl (fun t r => insertWildcard t r.1 r.2) t).find q =
      (rules.foldl (fun t r => insertWildcard t r.1 r.2) u).find q := by
  induction rules generalizing t u with
  | nil => exact h q
  | cons r rules ih =>
    refine ih fun p => ?_
    rw [find_insertWildcard, find_insertWildcard, h p]

theorem find_without_rejected {pattern : Bytes} (route : Route)
    (hp : wildcardSuffix pattern = none) (before after : List (Bytes × Route)) (q : List Bytes) :
    (loadWildcards (before ++ (pattern, route) :: after)).find q =
      (loadWildcards (before ++ after)).find q := by
  rw [loadWildcards_append, loadWildcards_append, List.foldl_cons]
  refine find_foldl_congr (fun p => ?_) after q
  rw [find_insertWildcard, if_neg]
  simp [wildcardPath, hp]

/-- Lookups of hosts without empty labels follow the most specific rule that is
taken; rules that are not taken change nothing. -/
theorem lookup_mostSpecific (rules : List (Bytes × Route)) {host : Bytes} (h : [] ∉ labels host) :
    (∀ route, lookupWildcard (loadWildcards rules) host = some route ↔
      ∃ suffix, MostSpecific rules host route suffix) ∧
    (lookupWildcard (loadWildcards rules) host = none ↔
      ∀ r ∈ rules, ∀ suffix, wildcardSuffix r.1 = some suffix → ¬Below host suffix) ∧
    ∀ before pattern route after, rules = before ++ (pattern, route) :: after →
      wildcardSuffix pattern = none → lookupWildcard (loadWildcards rules) host =
        lookupWildcard (loadWildcards (before ++ after)) host := by
  refine ⟨lookupWildcard_some_iff rules h, lookupWildcard_none_iff rules h, ?_⟩
  rintro before pattern route after rfl hp
  rw [lookupWildcard_eq _ h, lookupWildcard_eq _ h]
  exact congrArg _ (LabelTrie.longest_congr fun n _ => find_without_rejected route hp before after _)

theorem lookup_mostSpecific_rejected :
    lookupWildcard (loadWildcards [([0x2A, 0x2E, 0x62], [0x72]), ([0x2A, 0x2E, 0x61, 0x2E, 0x2E, 0x62], [0x73])])
        [0x61, 0x2E, 0x62] =
      lookupWildcard (loadWildcards [([0x2A, 0x2E, 0x62], [0x72])]) [0x61, 0x2E, 0x62] :=
  (lookup_mostSpecific _ (by decide)).2.2 [([0x2A, 0x2E, 0x62], [0x72])] _ _ [] rfl (by decide)

/-! ## Hosts with an empty label -/

/-- The labels the loop makes nodes for. -/
def createdPath (pattern : Bytes) : List Bytes :=
  if wildcardMark.isPrefixOf pattern then
    (labels (pattern.drop 2)).reverse.takeWhile (· ≠ [])
  else []

/-- The labels after the last empty one, from the right. -/
def lastLabels (host : Bytes) : List Bytes := (labels host).reverse.takeWhile (· ≠ [])

theorem takeWhile_of_notMem {path : List Bytes} (h : [] ∉ path) : path.takeWhile (· ≠ []) = path := by
  refine List.takeWhile_eq_self_iff.mpr fun l hl => ?_
  rw [decide_eq_true_eq]
  rintro rfl
  exact h hl

theorem has_insertWildcard {t : DomainTrie} (ht : t.Has []) (pattern : Bytes) (route : Route)
    (q : List Bytes) :
    (insertWildcard t pattern route).Has q ↔ t.Has q ∨ q <+: createdPath pattern := by
  have hkept : t.Has q ↔ t.Has q ∨ q <+: [] := by
    refine ⟨Or.inl, fun h => h.elim id fun hq => ?_⟩
    rw [List.prefix_nil.mp hq]
    exact ht
  unfold insertWildcard createdPath
  by_cases hm : wildcardMark.isPrefixOf pattern = true
  · rw [if_pos hm, if_pos hm]
    by_cases hs : pattern.drop 2 = []
    · rw [if_pos hs, hs]
      exact hkept
    · rw [if_neg hs, insertLabels]
      split
      · exact LabelTrie.has_extend t _ q none
      · rename_i he
        rw [LabelTrie.insert, LabelTrie.has_extend, takeWhile_of_notMem he]
  · rw [if_neg hm, if_neg hm]
    exact hkept

/-- The nodes of a trie are those the patterns have made. -/
theorem has_loadWildcards (rules : List (Bytes × Route)) (q : List Bytes) :
    (loadWildcards rules).Has q ↔ q = [] ∨ ∃ r ∈ rules, q <+: createdPath r.1 := by
  induction rules using List.reverseRecOn generalizing q with
  | nil =>
    cases q with
    | nil => simp [loadWildcards, newDomainTrie]
    | cons k ks => simp [loadWildcards, newDomainTrie, LabelTrie.child, LabelTrie.not_has_nil]
  | append_singleton rules r ih =>
    have hroot : (loadWildcards rules).Has [] := (ih []).mpr (Or.inl rfl)
    rw [loadWildcards_append, List.foldl_cons, List.foldl_nil, has_insertWildcard hroot, ih]
    simp [or_and_right, exists_or, or_assoc]

/-- The loop runs into the empty label. -/
theorem lookupLabels_reached (t : DomainTrie) (a b : List Bytes) (best : Option Route)
    (h : t.Has a) : lookupLabels t (a ++ [] :: b) best = none := by
  induction a generalizing t best with
  | nil => simp [lookupLabels]
  | cons l ls ih =>
    rw [List.cons_append, lookupLabels]
    split
    · rfl
    · rw [LabelTrie.has_cons] at h
      cases hc : t.child l with
      | nil =>
        rw [hc] at h
        exact absurd h (LabelTrie.not_has_nil ls)
      | node v c =>
        rw [hc] at h
        exact ih _ _ h

/-- The loop runs out of nodes first. -/
theorem lookupLabels_unreached (t : DomainTrie) {a : List Bytes} (ha : [] ∉ a) (b : List Bytes)
    (best : Option (Route × Nat)) (depth : Nat) (ht : t.Has []) (h : ¬t.Has a) :
    lookupLabels t (a ++ [] :: b) (best.map Prod.fst) = (t.walk a depth best).map Prod.fst := by
  induction a generalizing t best depth with
  | nil => exact absurd ht h
  | cons l ls ih =>
    rw [List.mem_cons, not_or] at ha
    rw [List.cons_append, lookupLabels, if_neg (Ne.symm ha.1), LabelTrie.walk]
    rw [LabelTrie.has_cons] at h
    cases hc : t.child l with
    | nil => rfl
    | node v c =>
      rw [hc] at h
      have hne : ls ++ [] :: b ≠ [] := by simp
      simp only [if_neg hne]
      rw [← ih (.node v c) ha.2 ((v.map (·, depth + 1)).or best) (depth + 1) (LabelTrie.has_node v c) h]
      cases v <;> rfl

theorem not_mem_lastLabels (host : Bytes) : [] ∉ lastLabels host := by
  intro h
  simpa using List.mem_takeWhile_imp h

theorem takeWhile_split {path : List Bytes} (h : [] ∈ path) :
    ∃ rest, path = path.takeWhile (· ≠ []) ++ [] :: rest := by
  induction path with
  | nil => cases h
  | cons l ls ih =>
    by_cases hl : l = []
    · exact ⟨ls, by simp [hl]⟩
    · obtain ⟨rest, hrest⟩ := ih ((List.mem_cons.mp h).resolve_left (Ne.symm hl))
      refine ⟨rest, ?_⟩
      rw [List.takeWhile_cons_of_pos (by simpa using hl), List.cons_append, ← hrest]

theorem lastLabels_split {host : Bytes} (h : [] ∈ labels host) :
    ∃ rest, (labels host).reverse = lastLabels host ++ [] :: rest :=
  takeWhile_split (List.mem_reverse.mpr h)

theorem length_lastLabels {host : Bytes} (h : [] ∈ labels host) :
    (lastLabels host).length < (labels host).length := by
  obtain ⟨rest, hsplit⟩ := lastLabels_split h
  have hlen := congrArg List.length hsplit
  rw [List.length_reverse, List.length_append, List.length_cons] at hlen
  omega

/-- A zone of the host without empty labels lies within its last labels. -/
theorem below_lastLabels {host : Bytes} (h : [] ∈ labels host) {suffix : List Bytes}
    (hs : [] ∉ suffix) : Below host suffix ↔ suffix.reverse <+: lastLabels host := by
  obtain ⟨rest, hsplit⟩ := lastLabels_split h
  constructor
  · rintro ⟨hb, -⟩
    have hp := List.reverse_prefix.mpr hb
    rw [hsplit] at hp
    rcases List.prefix_or_prefix_of_prefix hp (List.prefix_append _ _) with hle | ⟨more, hmore⟩
    · exact hle
    · rw [← hmore, List.prefix_append_right_inj] at hp
      cases more with
      | nil =>
        rw [List.append_nil] at hmore
        exact hmore ▸ List.prefix_rfl
      | cons l ls =>
        refine absurd (List.mem_reverse.mp ?_) hs
        rw [← hmore, (List.cons_prefix_cons.mp hp).1]
        simp
  · intro hp
    have hle := hp.length_le
    rw [List.length_reverse] at hle
    have hlt := length_lastLabels h
    refine ⟨?_, fun he => ?_⟩
    · rw [← List.reverse_prefix, hsplit]
      exact hp.trans (List.prefix_append _ _)
    · rw [he] at hle
      omega

theorem lookup_reached {rules : List (Bytes × Route)} {host : Bytes} (h : [] ∈ labels host)
    (hr : (loadWildcards rules).Has (lastLabels host)) :
    lookupWildcard (loadWildcards rules) host = none := by
  obtain ⟨rest, hsplit⟩ := lastLabels_split h
  unfold lookupWildcard
  split
  · rfl
  · rw [hsplit]
    exact lookupLabels_reached _ _ rest none hr

theorem lookup_unreached {rules : List (Bytes × Route)} {host : Bytes} (h : [] ∈ labels host)
    (hr : ¬(loadWildcards rules).Has (lastLabels host)) :
    lookupWildcard (loadWildcards rules) host =
      ((loadWildcards rules).longest (lastLabels host)).map Prod.fst := by
  obtain ⟨rest, hsplit⟩ := lastLabels_split h
  have hroot : (loadWildcards rules).Has [] := (has_loadWildcards rules []).mpr (Or.inl rfl)
  have hne : host ≠ [] := by
    rintro rfl
    exact hr hroot
  rw [lookupWildcard, if_neg hne, hsplit, LabelTrie.longest, root_loadWildcards]
  exact lookupLabels_unreached _ (not_mem_lastLabels host) rest none 0 hroot hr

/-- Something is found on the last labels when a rule names a zone the host lies below. -/
theorem longest_lastLabels (rules : List (Bytes × Route)) {host : Bytes} (h : [] ∈ labels host) :
    (loadWildcards rules).longest (lastLabels host) ≠ none ↔
      ∃ r ∈ rules, ∃ suffix, wildcardSuffix r.1 = some suffix ∧ Below host suffix := by
  rw [ne_eq, LabelTrie.longest_none]
  constructor
  · intro hn
    simp only [not_forall] at hn
    obtain ⟨n, hle, hf⟩ := hn
    rw [find_loadWildcards_none] at hf
    simp only [not_forall, not_not] at hf
    obtain ⟨r, hr, hs⟩ := hf
    refine ⟨r, hr, _, hs, (below_lastLabels h fun hm => ?_).mpr ?_⟩
    · exact not_mem_lastLabels host (List.mem_of_mem_take (List.mem_reverse.mp hm))
    · rw [List.reverse_reverse]
      exact List.take_prefix _ _
  · rintro ⟨r, hr, suffix, hs, hb⟩ hn
    have hfree : [] ∉ suffix := by
      unfold wildcardSuffix at hs
      split at hs
      · rename_i hc
        cases hs
        exact hc.2.2
      · cases hs
    have hp := (below_lastLabels h hfree).mp hb
    have hle := hp.length_le
    have hf := hn _ hle
    rw [← List.prefix_iff_eq_take.mp hp, find_loadWildcards_none] at hf
    exact hf r hr (by rw [List.reverse_reverse, hs])

/-! ## Locality -/

/-- The host has an empty label and lies below the zone of a rule; no pattern has
made nodes for all labels after the empty one, and this pattern does. -/
structure Cuts (rules : List (Bytes × Route)) (pattern host : Bytes) : Prop where
  emptyLabel : [] ∈ labels host
  matched : ∃ r ∈ rules, ∃ suffix, wildcardSuffix r.1 = some suffix ∧ Below host suffix
  unreached : ∀ r ∈ rules, ¬lastLabels host <+: createdPath r.1
  reaches : lastLabels host <+: createdPath pattern

/-- A pattern stores nothing along a host that is not below its zone. -/
theorem find_elsewhere (rules : List (Bytes × Route)) {s host : Bytes} {route : Route}
    (h : ¬Below host (labels s)) {n : Nat} (hn : n < (labels host).length) :
    (loadWildcards (rules ++ [(wildcardMark ++ s, route)])).find ((labels host).reverse.take n) =
      (loadWildcards rules).find ((labels host).reverse.take n) := by
  rw [find_loadWildcards_snoc, if_neg]
  intro hp
  rw [wildcardPath_iff] at hp
  unfold wildcardSuffix at hp
  split at hp
  · have hs : labels s = ((labels host).reverse.take n).reverse := Option.some.inj hp
    rw [hs] at h
    exact h (below_take hn)
  · cases hp

theorem longest_elsewhere (rules : List (Bytes × Route)) (route : Route) {s host : Bytes}
    (h : ¬Below host (labels s)) {path : List Bytes} (hp : path <+: (labels host).reverse)
    (hlt : path.length < (labels host).length) :
    (loadWildcards (rules ++ [(wildcardMark ++ s, route)])).longest path =
      (loadWildcards rules).longest path := by
  refine LabelTrie.longest_congr fun n hn => ?_
  have htake : path.take n = (labels host).reverse.take n := by
    rw [List.prefix_iff_eq_take.mp hp, List.take_take, Nat.min_eq_left hn]
  rw [htake]
  exact find_elsewhere rules h (by omega)

/-- Which tries have all the nodes of a host's last labels. -/
theorem has_snoc (rules : List (Bytes × Route)) (r : Bytes × Route) (q : List Bytes) :
    (loadWildcards (rules ++ [r])).Has q ↔ (loadWildcards rules).Has q ∨ q <+: createdPath r.1 := by
  rw [loadWildcards_append, List.foldl_cons, List.foldl_nil]
  exact has_insertWildcard ((has_loadWildcards rules []).mpr (Or.inl rfl)) _ _ _

theorem cuts_iff {rules : List (Bytes × Route)} {pattern host : Bytes} (he : [] ∈ labels host) :
    Cuts rules pattern host ↔ (loadWildcards rules).longest (lastLabels host) ≠ none ∧
      ¬(loadWildcards rules).Has (lastLabels host) ∧ lastLabels host <+: createdPath pattern := by
  rw [longest_lastLabels rules he, has_loadWildcards, not_or]
  constructor
  · rintro ⟨-, ⟨r, hr, hmatch⟩, hun, hre⟩
    refine ⟨⟨r, hr, hmatch⟩, ⟨fun hnil => ?_, fun ⟨q, hq, hp⟩ => hun q hq hp⟩, hre⟩
    refine hun r hr ?_
    rw [hnil]
    exact List.nil_prefix
  · rintro ⟨hmatch, ⟨-, hun⟩, hre⟩
    exact ⟨he, hmatch, fun r hr hp => hun ⟨r, hr, hp⟩, hre⟩

/-- A further pattern leaves a host outside its zone alone, unless it cuts it off. -/
theorem local_iff_not_cuts (rules : List (Bytes × Route)) (s host : Bytes) (route : Route)
    (h : ¬Below host (labels s)) :
    lookupWildcard (insertWildcard (loadWildcards rules) (wildcardMark ++ s) route) host =
      lookupWildcard (loadWildcards rules) host ↔ ¬Cuts rules (wildcardMark ++ s) host := by
  have hload : insertWildcard (loadWildcards rules) (wildcardMark ++ s) route =
      loadWildcards (rules ++ [(wildcardMark ++ s, route)]) := by
    rw [loadWildcards_append, List.foldl_cons, List.foldl_nil]
  rw [hload]
  by_cases he : [] ∈ labels host
  · have hpath : lastLabels host <+: (labels host).reverse := List.takeWhile_prefix _
    have hlong := longest_elsewhere rules route h hpath (length_lastLabels he)
    rw [cuts_iff he]
    by_cases hr : (loadWildcards rules).Has (lastLabels host)
    · rw [lookup_reached he ((has_snoc _ _ _).mpr (Or.inl hr)), lookup_reached he hr]
      exact ⟨fun _ hc => hc.2.1 hr, fun _ => rfl⟩
    · rw [lookup_unreached he hr]
      by_cases hp : lastLabels host <+: createdPath (wildcardMark ++ s)
      · rw [lookup_reached he ((has_snoc _ _ _).mpr (Or.inr hp)), eq_comm, Option.map_eq_none_iff]
        simp only [ne_eq, hr, not_false_eq_true, hp, and_true, not_not]
      · have hr' : ¬(loadWildcards (rules ++ [(wildcardMark ++ s, route)])).Has (lastLabels host) :=
          fun hh => ((has_snoc _ _ _).mp hh).elim hr hp
        rw [lookup_unreached he hr', hlong]
        exact ⟨fun _ hc => hp hc.2.2, fun _ => rfl⟩
  · have hlen := length_dropLast_labels host
    have hlong := longest_elsewhere rules route h (List.dropLast_prefix _)
      (show (labels host).reverse.dropLast.length < _ by omega)
    rw [lookupWildcard_eq _ he, lookupWildcard_eq _ he, hlong]
    exact ⟨fun _ hc => he hc.emptyLabel, fun _ => rfl⟩

/-- `*.z.b.c` makes the node for `b`, and the loop comes to the empty label of `x..b.c`. -/
theorem cuts_off : ∃ (rules : List (Bytes × Route)) (s host : Bytes) (route : Route),
    ¬Below host (labels s) ∧ lookupWildcard (loadWildcards rules) host = some [0x72] ∧
      lookupWildcard (insertWildcard (loadWildcards rules) (wildcardMark ++ s) route) host = none :=
  ⟨[([0x2A, 0x2E, 0x63], [0x72])], [0x7A, 0x2E, 0x62, 0x2E, 0x63],
    [0x78, 0x2E, 0x2E, 0x62, 0x2E, 0x63], [0x73],
    by unfold Below; decide, by decide, by decide⟩

/-- `*.z` leaves `a.b` alone. -/
theorem local_elsewhere :
    lookupWildcard (insertWildcard (loadWildcards [([0x2A, 0x2E, 0x62], [0x72])])
        (wildcardMark ++ [0x7A]) [0x73]) [0x61, 0x2E, 0x62] =
      lookupWildcard (loadWildcards [([0x2A, 0x2E, 0x62], [0x72])]) [0x61, 0x2E, 0x62] :=
  (local_iff_not_cuts _ [0x7A] _ _ (by unfold Below; decide)).mpr
    fun hc => absurd hc.emptyLabel (by decide)

end SplitProxy.Routing
