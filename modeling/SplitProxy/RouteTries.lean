import SplitProxy.LabelTrie
import SplitProxy.NetIP

/-!
# The two tries of the routing table

`CIDRTrie` keeps one binary trie for each address family, `DomainTrie` one trie
of domain labels read from the right. Both are label tries; what is theirs is
how a rule becomes a path and how a lookup walks.
-/
namespace SplitProxy.Routing

open NetIP

/-- A worker group's name, or the name that stands for a direct connection. -/
abbrev Route := Bytes

/-! ## CIDR rules -/

abbrev CIDRNode := LabelTrie Bool Route

structure CIDRTrie where
  ipv4 : CIDRNode
  ipv6 : CIDRNode

def CIDRTrie.empty : CIDRTrie := ⟨.nil, .nil⟩

/-- The children indices the loops of `insert` and `lookup` follow. -/
def bitPath (raw : List UInt8) (bits : Nat) : List Bool := (List.range bits).map (bitAt raw)

def CIDRTrie.insert (t : CIDRTrie) (p : Prefix) (route : Route) : CIDRTrie :=
  if p.isValid then
    match p.masked.ip with
    | .v4 x =>
      let bits := p.masked.bits
      if bits < 0 ∨ 32 < bits then t
      else { t with ipv4 := t.ipv4.insert (bitPath (bytesOf 4 x) bits.toNat) route }
    | .v6 x _ =>
      let bits := p.masked.bits
      if bits < 0 ∨ 128 < bits then t
      else { t with ipv6 := t.ipv6.insert (bitPath (bytesOf 16 x) bits.toNat) route }
    | .invalid => t
  else t

/-- The route, the length of the prefix it comes from and whether one was found. -/
def CIDRTrie.lookup (routeDirect : Route) (t : CIDRTrie) (a : Addr) : Route × Nat × Bool :=
  if a.isValid then
    let best := match a.unmap with
      | .v4 x => t.ipv4.longest (bitPath (bytesOf 4 x) 32)
      | .v6 x _ => t.ipv6.longest (bitPath (bytesOf 16 x) 128)
      | .invalid => none
    match best with
    | some (route, bits) => (route, bits, true)
    | none => (routeDirect, 0, false)
  else ([], 0, false)

/-- What `loadRoutes` makes of a parsed prefix before it inserts it. -/
def normalizePrefix (p : Prefix) : Prefix :=
  let p := p.masked
  if p.ip.is6 ∧ p.ip.unmap.is4 ∧ 96 ≤ p.bits then (prefixFrom p.ip.unmap (p.bits - 96)).masked
  else p

/-- `::ffff:0:0` -/
def mappedBase : BitVec 128 := 0xFFFF00000000#128

theorem is4In6_iff (x : BitVec 128) (z : Bytes) :
    (Addr.v6 x z).is4In6 = true ↔ leadingBits 96 x = leadingBits 96 mappedBase := by
  rw [← shift_eq_iff (by decide : 96 ≤ 128)]
  simp only [Addr.is4In6, decide_eq_true_eq]
  exact Iff.rfl

theorem masked_prefixFrom_v4 {x : BitVec 32} {n : Nat} (hn : n ≤ 32) :
    (prefixFrom (.v4 x) n).masked = prefixFrom (.v4 (x &&& maskTop n)) n := by
  obtain ⟨hip, hb⟩ := @prefixFrom_eq (.v4 x) n rfl hn
  obtain ⟨hip', hb'⟩ := @prefixFrom_eq (.v4 (x &&& maskTop n)) n rfl hn
  have hbits : (prefixFrom (.v4 x) n).bits.toNat = n := by
    simp only [Prefix.bits, hb]
    omega
  have hv : (prefixFrom (.v4 x) n).isValid = true := by simp [Prefix.isValid, hb]
  obtain ⟨hm, hmb⟩ := Prefix.masked_v4 hv hip
  refine Prefix.ext ?_ (by rw [hmb, hb, hb'])
  rw [hm, hip', hbits]
  rfl

theorem masked_prefixFrom_v6 {x : BitVec 128} {n : Nat} (hn : n ≤ 128) :
    (prefixFrom (.v6 x []) n).masked = prefixFrom (.v6 (x &&& maskTop n) []) n := by
  obtain ⟨hip, hb⟩ := @prefixFrom_eq (.v6 x []) n rfl hn
  obtain ⟨hip', hb'⟩ := @prefixFrom_eq (.v6 (x &&& maskTop n) []) n rfl hn
  have hbits : (prefixFrom (.v6 x []) n).bits.toNat = n := by
    simp only [Prefix.bits, hb]
    omega
  have hv : (prefixFrom (.v6 x []) n).isValid = true := by simp [Prefix.isValid, hb]
  obtain ⟨hm, hmb⟩ := Prefix.masked_v6 hv hip
  refine Prefix.ext ?_ (by rw [hmb, hb, hb'])
  rw [hm, hip', hbits]
  rfl

theorem normalize_v4 {x : BitVec 32} {n : Nat} (hn : n ≤ 32) :
    normalizePrefix (prefixFrom (.v4 x) n) = prefixFrom (.v4 (x &&& maskTop n)) n := by
  obtain ⟨hip, -⟩ := @prefixFrom_eq (.v4 (x &&& maskTop n)) n rfl hn
  unfold normalizePrefix
  dsimp only
  rw [masked_prefixFrom_v4 hn, if_neg]
  rintro ⟨h6, -⟩
  rw [hip] at h6
  cases h6

theorem normalize_v6 {x : BitVec 128} {n : Nat} (hn : n ≤ 128) :
    normalizePrefix (prefixFrom (.v6 x []) n) =
      if leadingBits 96 (x &&& maskTop n) = leadingBits 96 mappedBase ∧ 96 ≤ n then
        prefixFrom (.v4 ((x &&& maskTop n).setWidth 32 &&& maskTop (n - 96))) (n - 96 : Nat)
      else prefixFrom (.v6 (x &&& maskTop n) []) n := by
  obtain ⟨hip, hb⟩ := @prefixFrom_eq (.v6 (x &&& maskTop n) []) n rfl hn
  have hbits : (prefixFrom (.v6 (x &&& maskTop n) []) n).bits = n := by
    simp only [Prefix.bits, hb]
    omega
  have hip' : (prefixFrom (.v6 (x &&& maskTop n) []) n).ip = .v6 (x &&& maskTop n) [] := hip
  unfold normalizePrefix
  dsimp only
  rw [masked_prefixFrom_v6 hn, hip', hbits]
  by_cases hm : leadingBits 96 (x &&& maskTop n) = leadingBits 96 mappedBase
  · have hu : (Addr.v6 (x &&& maskTop n) []).unmap = .v4 ((x &&& maskTop n).setWidth 32) := by
      rw [Addr.unmap, if_pos ((is4In6_iff _ _).mpr hm)]
    rw [hu]
    by_cases h96 : 96 ≤ n
    · rw [if_pos ⟨rfl, rfl, by omega⟩, if_pos ⟨hm, h96⟩,
        show (n : Int) - 96 = (n - 96 : Nat) by omega, masked_prefixFrom_v4 (by omega)]
    · rw [if_neg (fun h => h96 (by omega)), if_neg (fun h => h96 h.2)]
  · have hu : (Addr.v6 (x &&& maskTop n) []).unmap = .v6 (x &&& maskTop n) [] := by
      rw [Addr.unmap, if_neg (fun h => hm ((is4In6_iff _ _).mp h))]
    rw [hu, if_neg (fun h => by cases h.2.1), if_neg (fun h => hm h.1)]

/-- Insert a list of rules in order, the way `loadRoutes` does. -/
def loadCIDRs (rules : List (Prefix × Route)) : CIDRTrie :=
  rules.foldl (fun t r => t.insert (normalizePrefix r.1) r.2) .empty

/-- The trie of one family. -/
def CIDRTrie.tree (t : CIDRTrie) (six : Bool) : CIDRNode := if six then t.ipv6 else t.ipv4

/-- The loops read the leading bits of the address. -/
theorem bitPath_bytesOf {w n m : Nat} (x : BitVec w) (hw : w = 8 * n) (hm : m ≤ w) :
    bitPath (bytesOf n x) m = leadingBits m x := by
  simp only [bitPath, leadingBits, List.map_inj_left, List.mem_range]
  intro i hi
  exact bitAt_bytesOf x hw (by omega)

def CIDRTrie.withTree (t : CIDRTrie) (six : Bool) (n : CIDRNode) : CIDRTrie :=
  if six then { t with ipv6 := n } else { t with ipv4 := n }

theorem CIDRTrie.tree_withTree (t : CIDRTrie) (six six' : Bool) (n : CIDRNode) :
    (t.withTree six n).tree six' = if six' = six then n else t.tree six' := by
  cases six <;> cases six' <;> rfl

/-- Inserting a prefix is inserting its path into the trie of its own family. -/
theorem CIDRTrie.insert_path (t : CIDRTrie) {p : Prefix} {six : Bool} {ks : List Bool}
    (route : Route) (h : p.path six = some ks) :
    t.insert p route = t.withTree six ((t.tree six).insert ks route) := by
  have hv := Prefix.isValid_of_path h
  have hle := p.bits_le hv
  have hpos : 0 < p.bitsPlusOne := by simpa [Prefix.isValid] using hv
  cases six with
  | false =>
    obtain ⟨x, hip, hks⟩ := Prefix.path_v4 h
    obtain ⟨hm, hb⟩ := Prefix.masked_v4 hv hip
    rw [hip] at hle
    have hbits : p.masked.bits = p.bits := by simp only [Prefix.bits, hb]
    have hin : ¬(p.bits < 0 ∨ 32 < p.bits) := by
      simp only [Prefix.bits, Addr.bitLen] at hle ⊢
      omega
    have hpath : bitPath (bytesOf 4 (x &&& maskTop p.bits.toNat)) p.bits.toNat = ks := by
      rw [bitPath_bytesOf _ rfl hle, leadingBits_masked (Nat.le_refl _) x hle, hks]
    rw [CIDRTrie.insert, if_pos hv, hm]
    simp only [hbits, hin, ↓reduceIte, hpath]
    rfl
  | true =>
    obtain ⟨x, z, hip, hks⟩ := Prefix.path_v6 h
    obtain ⟨hm, hb⟩ := Prefix.masked_v6 hv hip
    rw [hip] at hle
    have hbits : p.masked.bits = p.bits := by simp only [Prefix.bits, hb]
    have hin : ¬(p.bits < 0 ∨ 128 < p.bits) := by
      simp only [Prefix.bits, Addr.bitLen] at hle ⊢
      omega
    have hpath : bitPath (bytesOf 16 (x &&& maskTop p.bits.toNat)) p.bits.toNat = ks := by
      rw [bitPath_bytesOf _ rfl hle, leadingBits_masked (Nat.le_refl _) x hle, hks]
    rw [CIDRTrie.insert, if_pos hv, hm]
    simp only [hbits, hin, ↓reduceIte, hpath]
    rfl

theorem CIDRTrie.insert_invalid (t : CIDRTrie) {p : Prefix} (route : Route)
    (h : p.isValid = false) : t.insert p route = t := by
  rw [CIDRTrie.insert, if_neg (by rw [h]; exact Bool.false_ne_true)]

theorem Prefix.path_of_valid {p : Prefix} (h : p.isValid = true) :
    ∃ six ks, p.path six = some ks := by
  have hpos : 0 < p.bitsPlusOne := by simpa [Prefix.isValid] using h
  cases hip : p.ip with
  | invalid =>
    have hf := (p.fits hpos).1
    rw [hip] at hf
    cases hf
  | v4 x => exact ⟨false, leadingBits p.bits.toNat x, by simp only [Prefix.path, h, hip, ↓reduceIte]⟩
  | v6 x z => exact ⟨true, leadingBits p.bits.toNat x, by simp only [Prefix.path, h, hip, ↓reduceIte]⟩

theorem Prefix.path_family {p : Prefix} {six six' : Bool} {ks ls : List Bool}
    (h : p.path six = some ks) (h' : p.path six' = some ls) : six = six' ∧ ks = ls := by
  cases six <;> cases six'
  · rw [h] at h'
    exact ⟨rfl, Option.some.inj h'⟩
  · obtain ⟨x, hx, -⟩ := Prefix.path_v4 h
    obtain ⟨y, z, hy, -⟩ := Prefix.path_v6 h'
    rw [hx] at hy
    cases hy
  · obtain ⟨x, z, hx, -⟩ := Prefix.path_v6 h
    obtain ⟨y, hy, -⟩ := Prefix.path_v4 h'
    rw [hx] at hy
    cases hy
  · rw [h] at h'
    exact ⟨rfl, Option.some.inj h'⟩

/-- Inserting stores the route under the prefix's path in its own family. -/
theorem CIDRTrie.find_insert (t : CIDRTrie) (p : Prefix) (route : Route) (six : Bool)
    (q : List Bool) : ((t.insert p route).tree six).find q =
      if p.path six = some q then some route else (t.tree six).find q := by
  by_cases hv : p.isValid = true
  · obtain ⟨six', ks, hks⟩ := Prefix.path_of_valid hv
    rw [t.insert_path route hks, CIDRTrie.tree_withTree]
    by_cases hs : six = six'
    · subst hs
      rw [if_pos rfl, LabelTrie.find_insert, hks]
      simp only [Option.some.injEq, eq_comm]
    · rw [if_neg hs, if_neg fun hq => hs (Prefix.path_family hq hks).1]
  · have hpath : p.path six ≠ some q := fun hq => hv (Prefix.isValid_of_path hq)
    rw [t.insert_invalid route (by simpa using hv), if_neg hpath]

/-- Two prefixes go in in either order, unless they give one path two routes. -/
theorem CIDRTrie.insert_comm (t : CIDRTrie) {p q : Prefix} (a b : Route)
    (h : ∀ six ks, p.path six = some ks → q.path six = some ks → a = b) :
    (t.insert p a).insert q b = (t.insert q b).insert p a := by
  by_cases hp : p.isValid = true
  · by_cases hq : q.isValid = true
    · obtain ⟨six, ks, hks⟩ := Prefix.path_of_valid hp
      obtain ⟨six', ls, hls⟩ := Prefix.path_of_valid hq
      rw [t.insert_path a hks, t.insert_path b hls, CIDRTrie.insert_path _ b hls,
        CIDRTrie.insert_path _ a hks]
      by_cases hs : six = six'
      · subst hs
        have hc := (t.tree six).insert_comm ks ls a b fun he => h six ks hks (he ▸ hls)
        rw [CIDRTrie.tree_withTree, CIDRTrie.tree_withTree, if_pos rfl, if_pos rfl, hc]
        cases six <;> rfl
      · rw [CIDRTrie.tree_withTree, CIDRTrie.tree_withTree, if_neg (Ne.symm hs), if_neg hs]
        cases six <;> cases six' <;> first | rfl | exact absurd rfl hs
    · have hq' : q.isValid = false := by simpa using hq
      rw [CIDRTrie.insert_invalid _ b hq', t.insert_invalid b hq']
  · have hp' : p.isValid = false := by simpa using hp
    rw [t.insert_invalid a hp', CIDRTrie.insert_invalid _ a hp']

/-- What the loaded tries hold after any history of rules. -/
theorem find_loadCIDRs_snoc (rules : List (Prefix × Route)) (r : Prefix × Route) (six : Bool)
    (q : List Bool) : ((loadCIDRs (rules ++ [r])).tree six).find q =
      if (normalizePrefix r.1).path six = some q then some r.2
      else ((loadCIDRs rules).tree six).find q := by
  rw [loadCIDRs, List.foldl_append]
  exact CIDRTrie.find_insert _ _ _ _ _

theorem find_loadCIDRs_nil (six : Bool) (q : List Bool) :
    ((loadCIDRs []).tree six).find q = none := by
  cases six <;> exact LabelTrie.find_nil q

/-- The lookup is the longest match in the family of the unmapped address. -/
theorem CIDRTrie.lookup_eq (d : Route) (t : CIDRTrie) {a : Addr} {six : Bool} {as : List Bool}
    (h : a.unmap.path six = some as) :
    t.lookup d a = match (t.tree six).longest as with
      | some (route, bits) => (route, bits, true)
      | none => (d, 0, false) := by
  have hv : a.isValid = true := by
    cases a with
    | invalid => cases six <;> cases h
    | v4 x => rfl
    | v6 x z => rfl
  rw [CIDRTrie.lookup, if_pos hv]
  cases hu : a.unmap with
  | invalid =>
    rw [hu] at h
    cases six <;> cases h
  | v4 x =>
    rw [hu] at h
    cases six with
    | true => cases h
    | false =>
      cases h
      have hp : bitPath (bytesOf 4 x) 32 = leadingBits 32 x :=
        bitPath_bytesOf x rfl (Nat.le_refl 32)
      simp only [CIDRTrie.tree, Bool.false_eq_true, ↓reduceIte, hp]
  | v6 x z =>
    rw [hu] at h
    cases six with
    | false => cases h
    | true =>
      cases h
      have hp : bitPath (bytesOf 16 x) 128 = leadingBits 128 x :=
        bitPath_bytesOf x rfl (Nat.le_refl 128)
      simp only [CIDRTrie.tree, ↓reduceIte, hp]

/-! ### Normal prefixes -/

theorem normalizePrefix_masked (p : Prefix) : (normalizePrefix p).masked = normalizePrefix p := by
  rw [normalizePrefix]
  split <;> exact Prefix.masked_masked _

/-- A normal prefix is determined by its family and its bits. -/
theorem path_inj {p q : Prefix} {six : Bool} {ks : List Bool} (hp : p.masked = p)
    (hq : q.masked = q) (hpk : p.path six = some ks) (hqk : q.path six = some ks) : p = q := by
  have hbits : p.bits.toNat = q.bits.toNat := by
    rw [← Prefix.length_path hpk, ← Prefix.length_path hqk]
  have hpv := Prefix.isValid_of_path hpk
  have hqv := Prefix.isValid_of_path hqk
  have hone : p.bitsPlusOne = q.bitsPlusOne := by
    simp only [Prefix.isValid, decide_eq_true_eq] at hpv hqv
    simp only [Prefix.bits] at hbits
    omega
  refine Prefix.ext ?_ hone
  cases six with
  | false =>
    obtain ⟨x, hx, hxk⟩ := Prefix.path_v4 hpk
    obtain ⟨y, hy, hyk⟩ := Prefix.path_v4 hqk
    have hpm := (Prefix.masked_v4 hpv hx).1
    have hqm := (Prefix.masked_v4 hqv hy).1
    rw [hp] at hpm
    rw [hq] at hqm
    rw [← hbits] at hqm hyk
    rw [hpm, hqm, masked_eq (hxk.trans hyk.symm)]
  | true =>
    obtain ⟨x, z, hx, hxk⟩ := Prefix.path_v6 hpk
    obtain ⟨y, z', hy, hyk⟩ := Prefix.path_v6 hqk
    have hpm := (Prefix.masked_v6 hpv hx).1
    have hqm := (Prefix.masked_v6 hqv hy).1
    rw [hp] at hpm
    rw [hq] at hqm
    rw [← hbits] at hqm hyk
    rw [hpm, hqm, masked_eq (hxk.trans hyk.symm)]

/-- The rules as the tries get them, in the order of insertion. -/
def normalized (rules : List (Prefix × Route)) : List (Prefix × Route) :=
  rules.map (fun r => (normalizePrefix r.1, r.2))

/-- What is stored under a path is the route of the last rule with that path. -/
theorem find_loadCIDRs (rules : List (Prefix × Route)) (six : Bool) (q : List Bool) (route : Route) :
    ((loadCIDRs rules).tree six).find q = some route ↔ ∃ before p after,
      normalized rules = before ++ (p, route) :: after ∧ p.path six = some q ∧
        ∀ x ∈ after, x.1 ≠ p := by
  have hwins := @LabelTrie.last_wins Bool Route _ (Prefix × Route)
    (fun r => (normalizePrefix r.1).path six) (fun r => r.2)
    (fun rules q => ((loadCIDRs rules).tree six).find q) (find_loadCIDRs_nil six)
    (fun rules r q => find_loadCIDRs_snoc rules r six q) rules q route
  refine hwins.trans ?_
  constructor
  · rintro ⟨before, r, after, he, hp, hv, hlast⟩
    refine ⟨normalized before, normalizePrefix r.1, normalized after, ?_, hp, ?_⟩
    · rw [he, ← hv]
      simp [normalized]
    · intro x hx hxp
      obtain ⟨y, hy, rfl⟩ := List.mem_map.mp hx
      refine hlast y hy ?_
      rw [← hp, ← hxp]
  · rintro ⟨before, p, after, he, hp, hlast⟩
    obtain ⟨before', rest, rfl, -, hrest⟩ := List.map_eq_append_iff.mp he
    obtain ⟨r, after', rfl, hr, rfl⟩ := List.map_eq_cons_iff.mp hrest
    cases hr
    refine ⟨before', r, after', rfl, hp, rfl, fun x hx hxq => ?_⟩
    refine hlast _ (List.mem_map_of_mem hx) ?_
    exact path_inj (normalizePrefix_masked _) (normalizePrefix_masked _) hxq hp

theorem find_loadCIDRs_none (rules : List (Prefix × Route)) (six : Bool) (q : List Bool) :
    ((loadCIDRs rules).tree six).find q = none ↔
      ∀ r ∈ normalized rules, r.1.path six ≠ some q := by
  have hnone := @LabelTrie.none_stored Bool Route _ (Prefix × Route)
    (fun r => (normalizePrefix r.1).path six) (fun r => r.2)
    (fun rules q => ((loadCIDRs rules).tree six).find q) (find_loadCIDRs_nil six)
    (fun rules r q => find_loadCIDRs_snoc rules r six q) rules q
  refine hnone.trans ⟨fun h r hr => ?_, fun h r hr => h _ (List.mem_map_of_mem hr)⟩
  obtain ⟨y, hy, rfl⟩ := List.mem_map.mp hr
  exact h y hy

/-- The rule behind a find on an initial piece of the address covers it. -/
theorem covers_of_path {p : Prefix} {a : Addr} {six : Bool} {as : List Bool} {n : Nat}
    (ha : a.path six = some as) (hn : n ≤ as.length) (hp : p.path six = some (as.take n)) :
    p.covers a ∧ p.bits = n := by
  have hlen : p.bits.toNat = n := by
    rw [← Prefix.length_path hp, List.length_take, Nat.min_eq_left hn]
  have hv := Prefix.isValid_of_path hp
  simp only [Prefix.isValid, decide_eq_true_eq] at hv
  refine ⟨Prefix.covers_iff.mpr ⟨six, _, as, hp, ha, by rw [hlen]⟩, ?_⟩
  simp only [Prefix.bits] at hlen ⊢
  omega

/-- A covering prefix is found on the initial piece of the address it fixes. -/
theorem path_of_covers {p : Prefix} {a : Addr} {six : Bool} {as : List Bool}
    (ha : a.path six = some as) (hc : p.covers a) :
    p.bits.toNat ≤ as.length ∧ p.path six = some (as.take p.bits.toNat) ∧ 0 ≤ p.bits := by
  obtain ⟨six', ks, as', hp, ha', hk⟩ := Prefix.covers_iff.mp hc
  have hsix : six' = six := by
    cases a <;> cases six <;> cases six' <;> first | rfl | simp [Addr.path] at ha ha'
  subst hsix
  rw [ha] at ha'
  cases ha'
  have hlen := Prefix.length_path hp
  rw [hk, List.length_take] at hlen
  have hv := Prefix.isValid_of_path hp
  simp only [Prefix.isValid, decide_eq_true_eq] at hv
  refine ⟨by omega, by rw [hp, hk], ?_⟩
  simp only [Prefix.bits]
  omega

theorem path_of_valid {a : Addr} (h : a.isValid = true) : ∃ six as, a.unmap.path six = some as := by
  cases hu : a.unmap with
  | invalid =>
    have := Addr.isValid_unmap a
    rw [hu, h] at this
    cases this
  | v4 x => exact ⟨false, _, rfl⟩
  | v6 x z => exact ⟨true, _, rfl⟩

/-- Of the rules that cover the address, the longest; of equal ones the last. -/
structure LongestMatch (rules : List (Prefix × Route)) (a : Addr) (route : Route) (bits : Nat) :
    Prop where
  rule : ∃ before p after, rules = before ++ (p, route) :: after ∧ p.covers a ∧
    p.bits = (bits : Int) ∧ ∀ q ∈ after, q.1 ≠ p
  longest : ∀ q ∈ rules, q.1.covers a → q.1.bits ≤ (bits : Int)

theorem not_covers_invalid (p : Prefix) : ¬p.covers Addr.invalid := by
  rintro ⟨-, h⟩
  cases hip : p.ip <;> simp [hip] at h

theorem invalid_of_not_valid {a : Addr} (h : ¬a.isValid = true) : a = .invalid := by
  cases a with
  | invalid => rfl
  | v4 x => exact absurd rfl h
  | v6 x z => exact absurd rfl h

theorem lookup_some_iff (d : Route) (rules : List (Prefix × Route)) (a : Addr) (route : Route)
    (bits : Nat) : (loadCIDRs rules).lookup d a = (route, bits, true) ↔
      LongestMatch (normalized rules) a.unmap route bits := by
  by_cases hv : a.isValid = true
  · obtain ⟨six, as, ha⟩ := path_of_valid hv
    have hlongest : (loadCIDRs rules).lookup d a = (route, bits, true) ↔
        LabelTrie.IsLongest ((loadCIDRs rules).tree six) as route bits := by
      rw [← LabelTrie.longest_some, CIDRTrie.lookup_eq d _ ha]
      cases ((loadCIDRs rules).tree six).longest as with
      | none => simp
      | some r =>
        obtain ⟨b, n⟩ := r
        simp
    rw [hlongest]
    constructor
    · rintro ⟨hle, hstored, hmax⟩
      obtain ⟨before, p, after, he, hp, hlast⟩ := (find_loadCIDRs rules six _ route).mp hstored
      obtain ⟨hc, hb⟩ := covers_of_path ha hle hp
      refine ⟨⟨before, p, after, he, hc, hb, hlast⟩, fun q hq hqc => ?_⟩
      obtain ⟨hql, hqp, hq0⟩ := path_of_covers ha hqc
      by_contra hlt
      have hnone := hmax q.1.bits.toNat (by omega) hql
      rw [find_loadCIDRs_none] at hnone
      exact hnone q hq hqp
    · rintro ⟨⟨before, p, after, he, hc, hb, hlast⟩, hmax⟩
      obtain ⟨hpl, hpp, -⟩ := path_of_covers ha hc
      have hbits : p.bits.toNat = bits := by omega
      rw [hbits] at hpl hpp
      refine ⟨hpl, (find_loadCIDRs rules six _ route).mpr ⟨before, p, after, he, hpp, hlast⟩, ?_⟩
      intro m hm hml
      rw [find_loadCIDRs_none]
      intro q hq hqp
      obtain ⟨hqc, hqb⟩ := covers_of_path ha hml hqp
      have := hmax q hq hqc
      omega
  · have ha := invalid_of_not_valid hv
    subst ha
    constructor
    · intro h
      cases h
    · rintro ⟨⟨-, p, -, -, hp, -⟩, -⟩
      exact absurd hp (not_covers_invalid p)

theorem lookup_none_iff (d : Route) (rules : List (Prefix × Route)) (a : Addr) :
    ((loadCIDRs rules).lookup d a).2.2 = false ↔
      ∀ q ∈ normalized rules, ¬q.1.covers a.unmap := by
  by_cases hv : a.isValid = true
  · obtain ⟨six, as, ha⟩ := path_of_valid hv
    have hnone : ((loadCIDRs rules).lookup d a).2.2 = false ↔
        ((loadCIDRs rules).tree six).longest as = none := by
      rw [CIDRTrie.lookup_eq d _ ha]
      cases ((loadCIDRs rules).tree six).longest as <;> simp
    rw [hnone, LabelTrie.longest_none]
    constructor
    · intro h q hq hqc
      obtain ⟨hql, hqp, -⟩ := path_of_covers ha hqc
      have hf := h q.1.bits.toNat hql
      rw [find_loadCIDRs_none] at hf
      exact hf q hq hqp
    · intro h n hn
      rw [find_loadCIDRs_none]
      intro q hq hqp
      exact h q hq (covers_of_path ha hn hqp).1
  · have ha := invalid_of_not_valid hv
    subst ha
    exact ⟨fun _ q _ => not_covers_invalid q.1, fun _ => rfl⟩

/-- A lookup answers with the longest normal prefix that covers the address, the
last inserted among equal ones, and finds nothing exactly when none covers it. -/
theorem cidr_lookup_longest (d : Route) (rules : List (Prefix × Route)) (a : Addr) :
    (∀ route bits, (loadCIDRs rules).lookup d a = (route, bits, true) ↔
      LongestMatch (normalized rules) a.unmap route bits) ∧
    (((loadCIDRs rules).lookup d a).2.2 = false ↔
      ∀ q ∈ normalized rules, ¬q.1.covers a.unmap) :=
  ⟨lookup_some_iff d rules a, lookup_none_iff d rules a⟩

/-! ## Wildcard rules -/

/-- `DomainTrie`, by domain labels from the right. -/
abbrev DomainTrie := LabelTrie Bytes Route

def newDomainTrie : DomainTrie := .node none (fun _ => .nil)

/-- `strings.Split(host, ".")`. -/
def labels (host : Bytes) : List Bytes := host.splitOn GoText.dot

/-- `"*."`. -/
def wildcardMark : Bytes := [0x2A, 0x2E]

/-- The loop of `insertWildcard` over the labels from the right; at an empty label
it returns and leaves the nodes it has made. -/
def insertLabels (t : DomainTrie) (path : List Bytes) (route : Route) : DomainTrie :=
  if [] ∈ path then t.extend (path.takeWhile (· ≠ [])) none else t.insert path route

def insertWildcard (t : DomainTrie) (pattern : Bytes) (route : Route) : DomainTrie :=
  if wildcardMark.isPrefixOf pattern then
    if pattern.drop 2 = [] then t
    else insertLabels t (labels (pattern.drop 2)).reverse route
  else t

/-- The loop of `lookupWildcard` over the labels from the right. A node counts
only while a label is left of it; an empty label ends the lookup without a match. -/
def lookupLabels : DomainTrie → List Bytes → Option Route → Option Route
  | _, [], best => best
  | t, l :: ls, best =>
    if l = [] then none
    else match t.child l with
      | .nil => best
      | .node v c => lookupLabels (.node v c) ls (if ls = [] then best else v.or best)

def lookupWildcard (t : DomainTrie) (host : Bytes) : Option Route :=
  if host = [] then none else lookupLabels t (labels host).reverse none

def loadWildcards (rules : List (Bytes × Route)) : DomainTrie :=
  rules.foldl (fun t r => insertWildcard t r.1 r.2) newDomainTrie

/-- The labels after the asterisk, of a pattern `insertWildcard` takes. -/
def wildcardSuffix (pattern : Bytes) : Option (List Bytes) :=
  if wildcardMark.isPrefixOf pattern ∧ pattern.drop 2 ≠ [] ∧ [] ∉ labels (pattern.drop 2) then
    some (labels (pattern.drop 2))
  else none

def wildcardPath (pattern : Bytes) : Option (List Bytes) :=
  (wildcardSuffix pattern).map List.reverse

theorem find_insertWildcard (t : DomainTrie) (pattern : Bytes) (route : Route) (q : List Bytes) :
    (insertWildcard t pattern route).find q =
      if wildcardPath pattern = some q then some route else t.find q := by
  by_cases hm : wildcardMark.isPrefixOf pattern = true
  · by_cases hs : pattern.drop 2 = []
    · simp [insertWildcard, wildcardPath, wildcardSuffix, hs]
    · rw [insertWildcard, if_pos hm, if_neg hs, insertLabels]
      by_cases he : [] ∈ labels (pattern.drop 2)
      · rw [if_pos (List.mem_reverse.mpr he), LabelTrie.find_extend]
        simp [wildcardPath, wildcardSuffix, he]
      · rw [if_neg (fun h => he (List.mem_reverse.mp h)), LabelTrie.find_insert]
        simp [wildcardPath, wildcardSuffix, hm, hs, he, eq_comm]
  · simp [insertWildcard, wildcardPath, wildcardSuffix, hm]

theorem find_loadWildcards_nil (q : List Bytes) : (loadWildcards []).find q = none := by
  cases q with
  | nil => rfl
  | cons k ks => simp [loadWildcards, newDomainTrie, LabelTrie.child]

theorem find_loadWildcards_snoc (rules : List (Bytes × Route)) (r : Bytes × Route)
    (q : List Bytes) : (loadWildcards (rules ++ [r])).find q =
      if wildcardPath r.1 = some q then some r.2 else (loadWildcards rules).find q := by
  rw [loadWildcards, List.foldl_append]
  exact find_insertWildcard _ _ _ _

theorem labels_injective {s t : Bytes} (h : labels s = labels t) : s = t := by
  have hs : [GoText.dot].intercalate (labels s) = s := List.intercalate_splitOn _
  have ht : [GoText.dot].intercalate (labels t) = t := List.intercalate_splitOn _
  rw [← hs, h, ht]

theorem pattern_inj {p q : Bytes} (hp : wildcardMark.isPrefixOf p = true)
    (hq : wildcardMark.isPrefixOf q = true) (h : p.drop 2 = q.drop 2) : p = q := by
  obtain ⟨x, hx⟩ := List.isPrefixOf_iff_prefix.mp hp
  obtain ⟨y, hy⟩ := List.isPrefixOf_iff_prefix.mp hq
  rw [← hx, ← hy] at h ⊢
  rw [show x = y from h]

/-- Two patterns go in in either order, unless they are one pattern with two routes, and
one without an empty label. -/
theorem insertWildcard_comm (t : DomainTrie) {p q : Bytes} (a b : Route)
    (h : p = q → wildcardSuffix p ≠ none → a = b) :
    insertWildcard (insertWildcard t p a) q b = insertWildcard (insertWildcard t q b) p a := by
  unfold insertWildcard
  by_cases hp : wildcardMark.isPrefixOf p = true
  · by_cases hq : wildcardMark.isPrefixOf q = true
    · simp only [if_pos hp, if_pos hq]
      by_cases hpe : p.drop 2 = []
      · rw [if_pos hpe, if_pos hpe]
      · by_cases hqe : q.drop 2 = []
        · rw [if_pos hqe, if_pos hqe]
        · simp only [if_neg hpe, if_neg hqe, insertLabels, LabelTrie.insert]
          split <;> split <;> apply LabelTrie.extend_comm <;> intro he
          · exact Or.inl rfl
          · exact Or.inr (Or.inl rfl)
          · exact Or.inl rfl
          · rename_i _ hplain
            have hd := labels_injective (List.reverse_inj.mp he)
            have htaken : wildcardSuffix p ≠ none := by
              rw [wildcardSuffix, if_pos ⟨hp, hpe, fun hl => hplain (List.mem_reverse.mpr hl)⟩]
              exact Option.some_ne_none _
            exact Or.inr (Or.inr (congrArg some (h (pattern_inj hp hq hd) htaken)))
    · simp only [hq, Bool.false_eq_true, ↓reduceIte]
  · simp only [hp, Bool.false_eq_true, ↓reduceIte]

/-- With no empty label, the loop is a walk along all labels but the leftmost. -/
theorem lookupLabels_eq_walk (t : DomainTrie) {path : List Bytes} (h : [] ∉ path)
    (best : Option (Route × Nat)) (depth : Nat) :
    lookupLabels t path (best.map Prod.fst) = (t.walk path.dropLast depth best).map Prod.fst := by
  induction path generalizing t best depth with
  | nil => cases t <;> rfl
  | cons l ls ih =>
    rw [List.mem_cons, not_or] at h
    rw [lookupLabels, if_neg (fun hl => h.1 hl.symm)]
    cases ls with
    | nil =>
      rw [List.dropLast_singleton]
      cases hc : t.child l with
      | nil => cases t <;> rfl
      | node v c =>
        simp only [lookupLabels, ↓reduceIte]
        cases t <;> rfl
    | cons m ls =>
      rw [List.dropLast_cons_cons, LabelTrie.walk]
      cases hc : t.child l with
      | nil => rfl
      | node v c =>
        simp only [reduceCtorEq, ↓reduceIte]
        rw [← ih (.node v c) h.2 ((v.map (·, depth + 1)).or best) (depth + 1)]
        cases v <;> rfl

/-- With or without empty labels, what the loop finds is what the walk finds. -/
theorem walk_of_lookupLabels (t : DomainTrie) (path : List Bytes) (best : Option (Route × Nat))
    (depth : Nat) {route : Route} (h : lookupLabels t path (best.map Prod.fst) = some route) :
    (t.walk path.dropLast depth best).map Prod.fst = some route := by
  induction path generalizing t best depth with
  | nil => cases t <;> exact h
  | cons l ls ih =>
    rw [lookupLabels] at h
    split at h
    · cases h
    · cases ls with
      | nil =>
        rw [List.dropLast_singleton]
        cases hc : t.child l with
        | nil =>
          rw [hc] at h
          cases t <;> exact h
        | node v c =>
          rw [hc] at h
          cases t <;> exact h
      | cons m ls =>
        rw [List.dropLast_cons_cons, LabelTrie.walk]
        cases hc : t.child l with
        | nil =>
          rw [hc] at h
          exact h
        | node v c =>
          rw [hc] at h
          simp only [reduceCtorEq, ↓reduceIte] at h ⊢
          apply ih (.node v c) ((v.map (·, depth + 1)).or best) (depth + 1)
          rw [← h]
          cases v <;> rfl

/-- The pattern names a zone that the host lies below. -/
def Below (host : Bytes) (suffix : List Bytes) : Prop := suffix <:+ labels host ∧ suffix ≠ labels host

/-- Of the wildcard rules whose zone the host lies below, the one with most
labels; of equal ones the last. -/
structure MostSpecific (rules : List (Bytes × Route)) (host : Bytes) (route : Route)
    (suffix : List Bytes) : Prop where
  rule : ∃ before pattern after, rules = before ++ (pattern, route) :: after ∧
    wildcardSuffix pattern = some suffix ∧ ∀ r ∈ after, wildcardSuffix r.1 ≠ some suffix
  below : Below host suffix
  longest : ∀ r ∈ rules, ∀ other, wildcardSuffix r.1 = some other → Below host other →
    other.length ≤ suffix.length

theorem wildcardPath_iff {pattern : Bytes} {q : List Bytes} :
    wildcardPath pattern = some q ↔ wildcardSuffix pattern = some q.reverse := by
  cases hw : wildcardSuffix pattern with
  | none => simp [wildcardPath, hw]
  | some w =>
    simp only [wildcardPath, hw, Option.map_some, Option.some.injEq]
    exact List.reverse_eq_iff

/-- Paths of a length below the host's number of labels are its zones. -/
theorem below_iff_take {host : Bytes} {suffix : List Bytes} :
    Below host suffix ↔ suffix.length < (labels host).length ∧
      (labels host).reverse.take suffix.length = suffix.reverse := by
  constructor
  · rintro ⟨hs, hne⟩
    have hlt : suffix.length < (labels host).length := by
      rcases Nat.lt_or_ge suffix.length (labels host).length with h | h
      · exact h
      · exact absurd (hs.eq_of_length_le h) hne
    refine ⟨hlt, ?_⟩
    have := List.prefix_iff_eq_take.mp (List.reverse_prefix.mpr hs)
    rw [List.length_reverse] at this
    exact this.symm
  · rintro ⟨hlt, he⟩
    constructor
    · rw [← List.reverse_prefix, ← he]
      exact List.take_prefix _ _
    · rintro rfl
      exact Nat.lt_irrefl _ hlt

theorem find_loadWildcards (rules : List (Bytes × Route)) (q : List Bytes) (route : Route) :
    (loadWildcards rules).find q = some route ↔ ∃ before pattern after,
      rules = before ++ (pattern, route) :: after ∧ wildcardSuffix pattern = some q.reverse ∧
        ∀ r ∈ after, wildcardSuffix r.1 ≠ some q.reverse := by
  have hwins := @LabelTrie.last_wins Bytes Route _ (Bytes × Route) (fun r => wildcardPath r.1)
    (fun r => r.2) (fun rules q => (loadWildcards rules).find q) find_loadWildcards_nil
    (fun rules r q => find_loadWildcards_snoc rules r q) rules q route
  refine hwins.trans ?_
  simp only [wildcardPath_iff, ne_eq]
  constructor
  · rintro ⟨before, ⟨pattern, r⟩, after, he, hp, rfl, hlast⟩
    exact ⟨before, pattern, after, he, hp, hlast⟩
  · rintro ⟨before, pattern, after, he, hp, hlast⟩
    exact ⟨before, (pattern, route), after, he, hp, rfl, hlast⟩

theorem find_loadWildcards_none (rules : List (Bytes × Route)) (q : List Bytes) :
    (loadWildcards rules).find q = none ↔ ∀ r ∈ rules, wildcardSuffix r.1 ≠ some q.reverse := by
  have hnone := @LabelTrie.none_stored Bytes Route _ (Bytes × Route) (fun r => wildcardPath r.1)
    (fun r => r.2) (fun rules q => (loadWildcards rules).find q) find_loadWildcards_nil
    (fun rules r q => find_loadWildcards_snoc rules r q) rules q
  refine hnone.trans ?_
  simp only [ne_eq, wildcardPath_iff]

theorem root_loadWildcards (rules : List (Bytes × Route)) : (loadWildcards rules).value = none := by
  rw [← LabelTrie.find_nil_path, find_loadWildcards_none]
  intro r _ he
  simp only [wildcardSuffix, List.reverse_nil] at he
  split at he
  · exact List.splitOn_ne_nil _ _ (Option.some.inj he)
  · cases he

/-- With no empty label, a lookup finds the longest stored path short of the host itself. -/
theorem lookupWildcard_eq (rules : List (Bytes × Route)) {host : Bytes} (h : [] ∉ labels host) :
    lookupWildcard (loadWildcards rules) host =
      ((loadWildcards rules).longest (labels host).reverse.dropLast).map Prod.fst := by
  have hne : host ≠ [] := by
    rintro rfl
    exact h (by simp [labels])
  rw [lookupWildcard, if_neg hne, LabelTrie.longest, root_loadWildcards]
  exact lookupLabels_eq_walk _ (fun hm => h (List.mem_reverse.mp hm)) none 0

theorem take_dropLast_labels {host : Bytes} {n : Nat} (hn : n < (labels host).length) :
    (labels host).reverse.dropLast.take n = (labels host).reverse.take n := by
  rw [List.dropLast_eq_take, List.take_take, List.length_reverse, Nat.min_eq_left (by omega)]

theorem length_take_labels {host : Bytes} {n : Nat} (hn : n < (labels host).length) :
    ((labels host).reverse.take n).reverse.length = n := by
  rw [List.length_reverse, List.length_take, List.length_reverse, Nat.min_eq_left (by omega)]

theorem below_take {host : Bytes} {n : Nat} (hn : n < (labels host).length) :
    Below host ((labels host).reverse.take n).reverse := by
  rw [below_iff_take, length_take_labels hn, List.reverse_reverse]
  exact ⟨hn, rfl⟩

theorem length_dropLast_labels (host : Bytes) :
    (labels host).reverse.dropLast.length + 1 = (labels host).length := by
  have hpos : 0 < (labels host).length := List.length_pos_iff.mpr (List.splitOn_ne_nil _ _)
  rw [List.length_dropLast, List.length_reverse]
  omega

theorem longest_wildcard_iff (rules : List (Bytes × Route)) (host : Bytes) (route : Route) :
    ((loadWildcards rules).longest (labels host).reverse.dropLast).map Prod.fst = some route ↔
      ∃ suffix, MostSpecific rules host route suffix := by
  have hlen := length_dropLast_labels host
  constructor
  · intro hs
    obtain ⟨⟨b, n⟩, hl, rfl⟩ := Option.map_eq_some_iff.mp hs
    obtain ⟨hle, hstored, hmax⟩ := LabelTrie.longest_some.mp hl
    rw [take_dropLast_labels (by omega), find_loadWildcards] at hstored
    refine ⟨_, hstored, below_take (by omega), fun r hr other ho hb => ?_⟩
    rw [length_take_labels (by omega)]
    by_contra hlt
    obtain ⟨hol, hot⟩ := below_iff_take.mp hb
    have hf := hmax other.length (by omega) (by omega)
    rw [take_dropLast_labels hol, hot, find_loadWildcards_none] at hf
    exact hf r hr (by rw [List.reverse_reverse, ho])
  · rintro ⟨suffix, hrule, hb, hlongest⟩
    obtain ⟨hsl, hst⟩ := below_iff_take.mp hb
    have hl : LabelTrie.IsLongest (loadWildcards rules) (labels host).reverse.dropLast route
        suffix.length := by
      refine ⟨by omega, ?_, fun m hm hle => ?_⟩
      · rw [take_dropLast_labels hsl, hst, find_loadWildcards, List.reverse_reverse]
        exact hrule
      · rw [take_dropLast_labels (by omega), find_loadWildcards_none]
        intro r hr he
        have hml : m < (labels host).length := by omega
        have := hlongest r hr _ he (below_take hml)
        rw [length_take_labels hml] at this
        omega
    rw [LabelTrie.longest_some.mpr hl]
    rfl

theorem lookupWildcard_some_iff (rules : List (Bytes × Route)) {host : Bytes}
    (h : [] ∉ labels host) (route : Route) :
    lookupWildcard (loadWildcards rules) host = some route ↔
      ∃ suffix, MostSpecific rules host route suffix := by
  rw [lookupWildcard_eq rules h]
  exact longest_wildcard_iff rules host route

/-- With empty labels too, an answer is that of the most specific rule. -/
theorem mostSpecific_of_lookupWildcard {rules : List (Bytes × Route)} {host : Bytes} {route : Route}
    (h : lookupWildcard (loadWildcards rules) host = some route) :
    ∃ suffix, MostSpecific rules host route suffix := by
  rw [← longest_wildcard_iff, LabelTrie.longest, root_loadWildcards]
  unfold lookupWildcard at h
  split at h
  · cases h
  · exact walk_of_lookupLabels _ _ none 0 h

theorem lookupWildcard_none_iff (rules : List (Bytes × Route)) {host : Bytes}
    (h : [] ∉ labels host) : lookupWildcard (loadWildcards rules) host = none ↔
      ∀ r ∈ rules, ∀ suffix, wildcardSuffix r.1 = some suffix → ¬Below host suffix := by
  have hlen := length_dropLast_labels host
  rw [lookupWildcard_eq rules h, Option.map_eq_none_iff, LabelTrie.longest_none]
  constructor
  · intro hnone r hr suffix hs hb
    obtain ⟨hsl, hst⟩ := below_iff_take.mp hb
    have hf := hnone suffix.length (by omega)
    rw [take_dropLast_labels hsl, hst, find_loadWildcards_none] at hf
    exact hf r hr (by rw [List.reverse_reverse, hs])
  · intro hnone n hn
    have hnl : n < (labels host).length := by omega
    rw [take_dropLast_labels hnl, find_loadWildcards_none]
    intro r hr he
    exact hnone r hr _ he (below_take hnl)

end SplitProxy.Routing
