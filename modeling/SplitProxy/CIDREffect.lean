import SplitProxy.AddressText
import SplitProxy.DirectName

/-!
# What becomes of an accepted CIDR

The create endpoint takes what `ip_network` takes and stores the text as it is;
the proxy loads what `ParsePrefix` takes. The two meet on texts of an address,
a slash and plain decimal bits.
-/
namespace SplitProxy.Routing

open GoText NetIP PyIP Admin

/-! ## Texts both take -/

theorem bitLen_le (a : Addr) : a.bitLen ≤ 128 := by
  cases a with
  | invalid => exact Nat.zero_le _
  | v4 x => exact Nat.le_of_ble_eq_true rfl
  | v6 x z => exact Nat.le_refl _

/-- Past the test of the first digit no sign and no leading zero is left. -/
theorem atoi_some {s : Bytes} {b : Int} (h : atoi s = some b)
    (hlead : ¬(1 < s.length ∧ ¬(s.head?.any fun c => 0x31 ≤ c.toNat ∧ c.toNat ≤ 0x39))) :
    ∃ m, decimal s = some m ∧ b = (m : Int) ∧ (1 < s.length → s.head? ≠ some 0x30) := by
  cases s with
  | nil => cases h
  | cons c r =>
    have hfirst : r ≠ [] → 0x31 ≤ c.toNat ∧ c.toNat ≤ 0x39 := by
      intro hr
      by_contra hc
      refine hlead ⟨?_, by simpa using hc⟩
      rw [List.length_cons]
      exact Nat.succ_lt_succ (List.length_pos_iff.mpr hr)
    have hsign : c ≠ 0x2D ∧ c ≠ 0x2B := by
      by_cases hr : r = []
      · subst hr
        constructor
        · rintro rfl
          rw [show atoi [0x2D] = none by decide] at h
          cases h
        · rintro rfl
          rw [show atoi [0x2B] = none by decide] at h
          cases h
      · have hc := hfirst hr
        constructor
        · rintro rfl
          exact absurd hc (by decide)
        · rintro rfl
          exact absurd hc (by decide)
    simp only [atoi, hsign.1, hsign.2, ↓reduceIte] at h
    obtain ⟨m, hm, h⟩ := Option.bind_eq_some_iff.mp h
    obtain ⟨-, hb⟩ := Option.ite_none_right_eq_some.mp h
    refine ⟨m, hm, (Option.some.inj hb).symm, fun hlen h0 => ?_⟩
    cases h0
    have hr : r ≠ [] := by
      rintro rfl
      exact absurd hlen (by decide)
    exact absurd (hfirst hr) (by decide)

theorem parsePrefix_plain {addr bits : Bytes} {ip : Addr} {m : Nat} (ha : parseAddr addr = some ip)
    (hz : ip.withoutZone = ip) (hb : decimal bits = some m)
    (hlead : 1 < bits.length → bits.head? ≠ some 0x30) (hm : m ≤ ip.bitLen) :
    parsePrefix (addr ++ slash :: bits) = some (prefixFrom ip m) := by
  obtain ⟨hne, hd⟩ := decimal_some hb
  have hslash : slash ∉ bits := not_mem_digits hd (by decide)
  have h128 := bitLen_le ip
  have hno : ¬(1 < bits.length ∧ ¬(bits.head?.any fun c => 0x31 ≤ c.toNat ∧ c.toNat ≤ 0x39)) := by
    rintro ⟨hlen, hany⟩
    obtain ⟨c, r, rfl⟩ := List.exists_cons_of_ne_nil hne
    have hc := hd c List.mem_cons_self
    have h0 : c.toNat ≠ 0x30 := fun he => hlead hlen (congrArg some (UInt8.toNat_inj.mp he))
    simp only [isDigit, decide_eq_true_eq] at hc
    simp only [List.head?_cons, Option.any_some, decide_eq_true_eq] at hany
    omega
  have hrange : ¬((m : Int) < 0 ∨ (ip.bitLen : Int) < m) := by omega
  simp only [parsePrefix, splitLast_append hslash, ha, hz, ne_eq, not_true_eq_false, ↓reduceIte,
    hno, atoi_digits hb (show m < 2 ^ 63 by omega), hrange]

theorem parsePrefix_some {c : Bytes} {p : Prefix} (h : parsePrefix c = some p) :
    ∃ addr bits ip m, c = addr ++ slash :: bits ∧ parseAddr addr = some ip ∧
      ip.withoutZone = ip ∧ decimal bits = some m ∧ (1 < bits.length → bits.head? ≠ some 0x30) ∧
      m ≤ ip.bitLen ∧ p = prefixFrom ip m := by
  unfold parsePrefix at h
  cases hs : splitLast slash c with
  | none =>
    rw [hs] at h
    cases h
  | some r =>
    obtain ⟨addr, bits⟩ := r
    obtain ⟨rfl, -⟩ := splitLast_some hs
    rw [hs] at h
    simp only at h
    cases ha : parseAddr addr with
    | none =>
      rw [ha] at h
      cases h
    | some ip =>
      rw [ha] at h
      simp only at h
      split at h
      · cases h
      · rename_i hz
        split at h
        · cases h
        · rename_i hlead
          cases hb : atoi bits with
          | none =>
            rw [hb] at h
            cases h
          | some b =>
            rw [hb] at h
            simp only at h
            split at h
            · cases h
            · rename_i hrange
              cases h
              obtain ⟨m, hm, rfl, hz0⟩ := atoi_some hb hlead
              exact ⟨addr, bits, ip, m, rfl, ha, not_not.mp hz, hm, hz0, by omega, rfl⟩

/-- `address/bits` without a zone, the bits decimal digits and no zero in front. -/
def PlainCIDR (c : Bytes) : Prop :=
  ∃ addr bits, c = addr ++ slash :: bits ∧ percent ∉ addr ∧ (decimal bits).isSome = true ∧
    (1 < bits.length → bits.head? ≠ some 0x30)

theorem percent_of_zoneless {s : Bytes} {a : Addr} (h : parseAddr s = some a)
    (hz : a.withoutZone = a) : percent ∉ s := by
  by_cases hc : colon ∈ s
  · obtain ⟨body, zone, groups, rfl, hb, rfl⟩ := parseAddr_colon h hc
    have hnil : zone = [] := by
      simp only [addrOf, Addr.withoutZone, Addr.v6.injEq, true_and] at hz
      exact hz.symm
    rw [withZone, if_pos hnil]
    exact percent_not_mem_body (parseBody_text hb).1
  · intro hp
    rcases (parseAddr_no_colon h hc).2 percent hp with hd | hd
    · exact absurd hd (by decide)
    · exact absurd hd (by decide)

theorem plain_of_parsePrefix {c : Bytes} {p : Prefix} (h : parsePrefix c = some p) : PlainCIDR c := by
  obtain ⟨addr, bits, ip, m, rfl, ha, hz, hb, hlead, -, -⟩ := parsePrefix_some h
  exact ⟨addr, bits, rfl, percent_of_zoneless ha hz, by rw [hb]; rfl, hlead⟩

theorem splitOptionalNetmask_some {addr bits : Bytes} (hb : slash ∉ bits) {r : Bytes × Option Bytes}
    (h : splitOptionalNetmask (addr ++ slash :: bits) = some r) : r = (addr, some bits) := by
  have hsplit : (addr ++ slash :: bits).splitOn 0x2F = addr.splitOn 0x2F ++ [bits] := by
    rw [← List.splitOn_eq_singleton hb]
    exact List.splitOn_append_cons_self _ _
  unfold splitOptionalNetmask at h
  rw [hsplit] at h
  have hjoin := joined_splitOn 0x2F addr
  match ha : addr.splitOn 0x2F with
  | [] => exact absurd ha (List.splitOn_ne_nil _ _)
  | [a] =>
    rw [ha] at h hjoin
    cases h
    rw [← hjoin]
    rfl
  | a :: b :: r' =>
    rw [ha] at h
    cases r' with
    | nil => cases h
    | cons c r' => cases h

theorem prefixFromPrefixString_some {max m : Nat} {s : Bytes}
    (h : prefixFromPrefixString max s = some m) : decimal s = some m ∧ m ≤ max := by
  obtain ⟨n, hn, h⟩ := Option.bind_eq_some_iff.mp h
  obtain ⟨hle, he⟩ := Option.ite_none_right_eq_some.mp h
  cases he
  exact ⟨hn, hle⟩

/-- Digits alone are no netmask. -/
theorem prefixFromIPString_digits {s : Bytes} (h : ∀ c ∈ s, isDigit c = true) :
    prefixFromIPString s = none := by
  have hdot : dot ∉ s := not_mem_digits h (by decide)
  rw [prefixFromIPString, ipv4FromString, List.splitOn_eq_singleton hdot]
  rfl

/-- The network of a plain text, and the prefix the proxy reads. -/
theorem plain_network {c : Bytes} {n : Network} (hc : PlainCIDR c) (hn : ipNetwork c = some n) :
    (∃ x, n.networkAddress = .v4 (x &&& maskTop n.prefixlen) ∧ n.prefixlen ≤ 32 ∧
        parsePrefix c = some (prefixFrom (.v4 x) n.prefixlen)) ∨
      ∃ x, n.networkAddress = .v6 (x &&& maskTop n.prefixlen) [] ∧ n.prefixlen ≤ 128 ∧
        parsePrefix c = some (prefixFrom (.v6 x []) n.prefixlen) := by
  obtain ⟨addr, bits, rfl, hp, hb, hlead⟩ := hc
  obtain ⟨b, hb⟩ := Option.isSome_iff_exists.mp hb
  obtain ⟨-, hd⟩ := decimal_some hb
  have hslash : slash ∉ bits := not_mem_digits hd (by decide)
  rcases Option.or_eq_some_iff.mp hn with h | ⟨-, h⟩
  · left
    unfold ipv4Network at h
    cases hs : splitOptionalNetmask (addr ++ slash :: bits) with
    | none =>
      rw [hs] at h
      cases h
    | some r =>
      cases splitOptionalNetmask_some hslash hs
      rw [hs] at h
      simp only [ipv4Prefixlen, prefixFromIPString_digits hd, Option.or_none] at h
      split at h
      · rename_i x m hx hm
        cases h
        obtain ⟨hm, hle⟩ := prefixFromPrefixString_some hm
        exact ⟨x, rfl, hle, parsePrefix_plain (parseAddr_of_ipv4 hx) rfl hm hlead hle⟩
      · cases h
  · right
    unfold ipv6Network at h
    cases hs : splitOptionalNetmask (addr ++ slash :: bits) with
    | none =>
      rw [hs] at h
      cases h
    | some r =>
      cases splitOptionalNetmask_some hslash hs
      rw [hs] at h
      simp only [splitScopeId, splitFirst_none.mpr hp, ipv6Prefixlen] at h
      split at h
      · rename_i x m hx hm
        obtain ⟨hm, hle⟩ := prefixFromPrefixString_some hm
        have hparse := parsePrefix_plain (parseAddr_of_ipv6 hx) rfl hm hlead hle
        split at h
        · rename_i hself
          cases h
          exact ⟨x, congrArg (Addr.v6 · []) hself.symm, hle, hparse⟩
        · cases h
          exact ⟨x, rfl, hle, hparse⟩
      · cases h

/-! ## The addresses of the prefix -/

section Covers

variable {w : Nat}

theorem leadingBits_le {m n : Nat} (h : m ≤ n) {x y : BitVec w}
    (he : leadingBits n x = leadingBits n y) : leadingBits m x = leadingBits m y := by
  rw [← take_leadingBits h x, ← take_leadingBits h y, he]

theorem masked_iff {n : Nat} (hn : n ≤ w) {x y : BitVec w} :
    x &&& maskTop n = y &&& maskTop n ↔ leadingBits n x = leadingBits n y := by
  constructor
  · intro h
    rw [← leadingBits_masked (Nat.le_refl n) x hn, h, leadingBits_masked (Nat.le_refl n) y hn]
  · exact masked_eq

end Covers

theorem covers_v4 {x : BitVec 32} {n : Nat} (hn : n ≤ 32) (a : Addr) :
    (prefixFrom (.v4 x) n).covers a ↔ ∃ y, a = .v4 y ∧ leadingBits n x = leadingBits n y := by
  obtain ⟨hip, hb⟩ := @prefixFrom_eq (.v4 x) n rfl hn
  have hbits : (prefixFrom (.v4 x) n).bits.toNat = n := by
    simp only [Prefix.bits, hb]
    omega
  have hv : (prefixFrom (.v4 x) n).isValid = true := by simp [Prefix.isValid, hb]
  cases a with
  | invalid => simp [Prefix.covers, hip, Addr.withoutZone]
  | v4 y => simp [Prefix.covers, hip, hbits, Addr.withoutZone, hv, shift_eq_iff hn]
  | v6 y z => simp [Prefix.covers, hip, Addr.withoutZone]

theorem covers_v6 {x : BitVec 128} {n : Nat} (hn : n ≤ 128) (a : Addr) :
    (prefixFrom (.v6 x []) n).covers a ↔ ∃ y z, a = .v6 y z ∧ leadingBits n x = leadingBits n y := by
  obtain ⟨hip, hb⟩ := @prefixFrom_eq (.v6 x []) n rfl hn
  have hbits : (prefixFrom (.v6 x []) n).bits.toNat = n := by
    simp only [Prefix.bits, hb]
    omega
  have hv : (prefixFrom (.v6 x []) n).isValid = true := by simp [Prefix.isValid, hb]
  cases a with
  | invalid => simp [Prefix.covers, hip, Addr.withoutZone]
  | v4 y => simp [Prefix.covers, hip, Addr.withoutZone]
  | v6 y z => simp [Prefix.covers, hip, hbits, Addr.withoutZone, hv, shift_eq_iff hn]

/-- The prefix has the addresses of the network. -/
theorem covers_iff_contains {c : Bytes} {n : Network} {p : Prefix} (hc : PlainCIDR c)
    (hn : ipNetwork c = some n) (hp : parsePrefix c = some p) (a : Addr) :
    p.covers a ↔ n.contains a := by
  rcases plain_network hc hn with ⟨x, hx, hle, hparse⟩ | ⟨x, hx, hle, hparse⟩
  · rw [hparse] at hp
    cases hp
    rw [covers_v4 hle]
    cases a with
    | invalid => simp [Network.contains, hx]
    | v4 y => simp [Network.contains, hx, masked_iff hle, eq_comm]
    | v6 y z => simp [Network.contains, hx]
  · rw [hparse] at hp
    cases hp
    rw [covers_v6 hle]
    cases a with
    | invalid => simp [Network.contains, hx]
    | v4 y => simp [Network.contains, hx]
    | v6 y z => simp [Network.contains, hx, masked_iff hle, eq_comm]

/-! ## Mapped addresses -/

/-- An IPv6 network around all IPv4-mapped addresses, which are looked up as IPv4 ones. -/
def SpansMapped (n : Network) : Prop := n.prefixlen < 96 ∧ n.contains (.v6 mappedBase [])

theorem getMsbD_low (x : BitVec 128) {i : Nat} (hi : i < 32) :
    (x.setWidth 32).getMsbD i = x.getMsbD (96 + i) := by
  rw [BitVec.getMsbD_setWidth]
  have h1 : 32 - 128 ≤ i := by omega
  have h2 : i + 128 - 32 = 96 + i := by omega
  simp [h2]

theorem leadingBits_low {m : Nat} (hm : 96 ≤ m) (hle : m ≤ 128) {x y : BitVec 128}
    (h : leadingBits m x = leadingBits m y) :
    leadingBits (m - 96) (x.setWidth 32) = leadingBits (m - 96) (y.setWidth 32) := by
  rw [leadingBits_eq] at h ⊢
  intro i hi
  rw [getMsbD_low x (by omega), getMsbD_low y (by omega)]
  exact h (96 + i) (by omega)

/-- What is looked up for an address of the network is in what was inserted. -/
theorem normalized_covers {c : Bytes} {n : Network} {p : Prefix} (hc : PlainCIDR c)
    (hn : ipNetwork c = some n) (hs : ¬SpansMapped n) (hp : parsePrefix c = some p) {a : Addr}
    (ha : n.contains a) : (normalizePrefix p).covers a.unmap := by
  have hcov := (covers_iff_contains hc hn hp a).mpr ha
  rcases plain_network hc hn with ⟨x, -, hle, hparse⟩ | ⟨x, -, hle, hparse⟩
  · rw [hparse] at hp
    cases hp
    obtain ⟨y, rfl, hbits⟩ := (covers_v4 hle a).mp hcov
    rw [normalize_v4 hle, covers_v4 hle]
    exact ⟨y, rfl, by rw [leadingBits_masked (Nat.le_refl _) x hle, hbits]⟩
  · rw [hparse] at hp
    cases hp
    obtain ⟨y, z, rfl, hbits⟩ := (covers_v6 hle a).mp hcov
    have hmask := leadingBits_masked (Nat.le_refl n.prefixlen) x hle
    by_cases hm : (Addr.v6 y z).is4In6 = true
    · have hy := (is4In6_iff y z).mp hm
      have h96 : 96 ≤ n.prefixlen := by
        by_contra hlt
        have hlow : n.prefixlen ≤ 96 := by omega
        refine hs ⟨by omega, ?_⟩
        rw [← covers_iff_contains hc hn hparse, covers_v6 hle]
        exact ⟨mappedBase, [], rfl, hbits.trans (leadingBits_le hlow hy)⟩
      have hx96 : leadingBits 96 (x &&& maskTop n.prefixlen) = leadingBits 96 mappedBase := by
        rw [leadingBits_masked h96 x (by decide), leadingBits_le h96 hbits, hy]
      have hlow := leadingBits_low h96 hle (hmask.trans hbits)
      rw [normalize_v6 hle, if_pos ⟨hx96, h96⟩, Addr.unmap, if_pos hm, covers_v4 (by omega)]
      exact ⟨_, rfl, by rw [leadingBits_masked (Nat.le_refl _) _ (by omega), hlow]⟩
    · have hno : ¬(leadingBits 96 (x &&& maskTop n.prefixlen) = leadingBits 96 mappedBase ∧
          96 ≤ n.prefixlen) := by
        rintro ⟨hx96, h96⟩
        rw [leadingBits_masked h96 x (by decide), leadingBits_le h96 hbits] at hx96
        exact hm ((is4In6_iff y z).mpr hx96)
      rw [normalize_v6 hle, if_neg hno, Addr.unmap, if_neg hm, covers_v6 hle]
      exact ⟨y, z, rfl, hmask.trans hbits⟩

/-! ## Taking effect -/

/-- `Prefix.Contains`: an address with a zone is in no prefix. -/
def contains (p : Prefix) (a : Addr) : Prop := a.withoutZone = a ∧ p.covers a

/-- Only the entry `e` matches the name or one of its addresses. -/
structure OnlyRule (x : Stored) (dns : Answers) (name : Bytes) (e : Bytes × Bytes) : Prop where
  domains : ∀ route, ¬DomainRouted x name route
  cidrs : ∀ e' ∈ x.cidrs, e' ≠ e → ∀ p route b, cidrRule e' = some (p, route) →
    Target dns name b → ¬(normalizePrefix p).covers b.unmap

/-- After `create_cidr_route` has stored the text `c` for the group `g`, it is loaded
as the network it stands for, and an address of the network that no other rule
matches goes to the group. -/
structure TakesEffect (c g : Bytes) (n : Network) : Prop where
  loaded : ∃ p, cidrRule (c, g) = some (p, g) ∧ parsePrefix c = some p ∧
    ∀ a, a.withoutZone = a → (contains p a ↔ n.contains a)
  routed : ∀ (direct : Route) (s : Store) (pk : Nat) (x : Stored) (dns : Answers) (host : Bytes)
    (a : Addr), Reads (apply s (.setCIDRs [c] (some ⟨pk, g⟩))) x → spelledHost host ≠ [] → OnlyRule x dns (trimSuffix (spelledHost host) [dot]) (c, g) →
    Target dns (trimSuffix (spelledHost host) [dot]) a → n.contains a →
    resolveRoute direct dns (some (loadRoutes direct x)) host = g

variable {c g : Bytes} {n : Network}

theorem cidrRule_plain (hc : trimSpace c = c) (hg : trimSpace g = g ∧ g ≠ []) {p : Prefix}
    (hp : parsePrefix c = some p) : cidrRule (c, g) = some (p, g) := by
  have hne : c ≠ [] := by
    rintro rfl
    rw [show parsePrefix [] = none by decide] at hp
    cases hp
  simp only [cidrRule, hc, hg.1, hne, hg.2, or_self, ↓reduceIte, hp, Option.map_some]

theorem takesEffect_of_plain (hc : trimSpace c = c) (hg : trimSpace g = g ∧ g ≠ [])
    (hn : ipNetwork c = some n) (hplain : PlainCIDR c) (hs : ¬SpansMapped n) : TakesEffect c g n := by
  have hparse : ∃ p, parsePrefix c = some p := by
    rcases plain_network hplain hn with ⟨x, -, -, h⟩ | ⟨x, -, -, h⟩
    · exact ⟨_, h⟩
    · exact ⟨_, h⟩
  obtain ⟨p, hp⟩ := hparse
  have hrule := cidrRule_plain hc hg hp
  refine ⟨⟨p, hrule, hp, fun a ha => ?_⟩, fun direct s pk x dns host a hx hh honly ht ha => ?_⟩
  · rw [contains, covers_iff_contains hplain hn hp]
    exact and_iff_right ha
  · have hstored : (c, g) ∈ x.cidrs :=
      hx.cidrs.mem_iff.mpr (mem_hsetAll (List.mem_singleton_self c))
    have hmatch : CIDRRouted x dns (trimSuffix (spelledHost host) [dot]) g :=
      ⟨(c, g), hstored, p, a, hrule, ht, normalized_covers hplain hn hs hp ha⟩
    rcases resolveRoute_decided direct x dns hh with hd | ⟨-, hcidr | ⟨hnone, -⟩⟩
    · exact absurd hd (honly.domains _)
    · obtain ⟨e, he, q, b, hr, hb, hcov⟩ := hcidr
      by_cases hec : e = (c, g)
      · rw [hec, hrule] at hr
        exact (congrArg Prod.snd (Option.some.inj hr)).symm
      · exact absurd hcov (honly.cidrs e he hec q _ b hr hb)
    · exact absurd hmatch (hnone g)

/-- `::ffff:0.0.0.0` -/
def mappedHost : Bytes := mappedMark ++ [0x30, 0x2E, 0x30, 0x2E, 0x30, 0x2E, 0x30]

/-- A network around the mapped addresses loses them: they are looked up as IPv4 ones. -/
theorem mapped_missed (hplain : PlainCIDR c) (hn : ipNetwork c = some n) (hs : SpansMapped n) :
    ¬TakesEffect c g n := by
  intro h
  obtain ⟨hlt, hbase⟩ := hs
  have hother : ∃ other : Bytes, trimSpace other = other ∧ other ≠ [] ∧ other ≠ g := by
    by_cases hga : g = [0x61]
    · exact ⟨[0x62], by decide, by decide, by rw [hga]; decide⟩
    · exact ⟨[0x61], by decide, by decide, fun he => hga he.symm⟩
  obtain ⟨other, htrim, hne, hog⟩ := hother
  have hname : trimSuffix (spelledHost mappedHost) [dot] = mappedHost := by decide +kernel
  have hparse : parseAddr mappedHost = some (.v6 mappedBase []) := by decide +kernel
  obtain ⟨p, hrule, hp, -⟩ := h.loaded
  have honly : OnlyRule ⟨[], [(c, g)], some other⟩ (fun _ => none) mappedHost (c, g) := by
    constructor
    · rintro route ⟨e, he, -⟩
      cases he
    · intro e he hne
      exact absurd (List.mem_singleton.mp he) hne
  have hroute := h.routed g ⟨[], 0, [], [], some other⟩ 0 ⟨[], [(c, g)], some other⟩ (fun _ => none)
    mappedHost (.v6 mappedBase []) ⟨.nil, .refl _, rfl⟩ (by decide +kernel) (hname.symm ▸ honly) (hname.symm ▸ Or.inl hparse) hbase
  have hno : ∀ route, ¬CIDRRouted ⟨[], [(c, g)], some other⟩ (fun _ => none) mappedHost route := by
    rintro route ⟨e, he, q, b, hr, hb, hcov⟩
    cases List.mem_singleton.mp he
    rw [hrule] at hr
    cases hr
    have hb' : b = .v6 mappedBase [] := by
      rcases hb with hb | ⟨hb, -⟩
      · rw [hparse] at hb
        exact (Option.some.inj hb).symm
      · rw [hparse] at hb
        cases hb
    subst hb'
    have hu : (Addr.v6 mappedBase []).unmap = .v4 0 := by decide
    rw [hu] at hcov
    rcases plain_network hplain hn with ⟨x, -, hle, hq⟩ | ⟨x, -, hle, hq⟩
    · rw [← covers_iff_contains hplain hn hq, covers_v4 hle] at hbase
      obtain ⟨y, he, -⟩ := hbase
      cases he
    · rw [hp] at hq
      cases hq
      rw [normalize_v6 hle, if_neg (fun h => by omega), covers_v6 hle] at hcov
      obtain ⟨y, z, he, -⟩ := hcov
      cases he
  rcases resolveRoute_decided g ⟨[], [(c, g)], some other⟩ (fun _ => none)
    (show spelledHost mappedHost ≠ [] by decide +kernel) with hd | ⟨-, hcidr | ⟨-, hdef⟩⟩
  · obtain ⟨e, he, -⟩ := hd
    cases he
  · rw [hname] at hcidr
    exact absurd hcidr (hno _)
  · rw [hroute, loadDefault, Option.getD_some, htrim, if_neg hne] at hdef
    exact hog hdef.symm

theorem validateCIDRs_some {texts cidrs : List Bytes} (h : validateCIDRs texts = some cidrs)
    (hc : c ∈ cidrs) : trimSpace c = c ∧ ∃ n, ipNetwork c = some n := by
  unfold validateCIDRs at h
  split at h
  · cases h
  · rename_i ks hk
    obtain ⟨hall, he⟩ := Option.ite_none_right_eq_some.mp h
    cases he
    exact ⟨(mapM_charField hk c hc).1, Option.isSome_iff_exists.mp (List.all_eq_true.mp hall c hc)⟩

/-- A CIDR the create endpoint takes, for a group with a name, takes effect exactly
when it is plain and no IPv6 network around the mapped addresses. -/
theorem takes_effect_iff_plain {texts cidrs : List Bytes} (h : validateCIDRs texts = some cidrs)
    {name : Bytes} (hg : charField 255 name = some g) (hc : c ∈ cidrs) :
    ∃ n, ipNetwork c = some n ∧ (TakesEffect c g n ↔ PlainCIDR c ∧ ¬SpansMapped n) := by
  obtain ⟨htrim, n, hn⟩ := validateCIDRs_some h hc
  have hname := charField_some hg
  refine ⟨n, hn, fun ht => ?_, fun hp => takesEffect_of_plain htrim hname hn hp.1 hp.2⟩
  obtain ⟨p, -, hp, -⟩ := ht.loaded
  have hplain := plain_of_parsePrefix hp
  exact ⟨hplain, fun hs => mapped_missed hplain hn hs ht⟩

/-- `10.0.0.0/8` for the group `eu`. -/
theorem takes_effect_ten :
    ∃ n, ipNetwork [0x31, 0x30, 0x2E, 0x30, 0x2E, 0x30, 0x2E, 0x30, 0x2F, 0x38] = some n ∧
      (TakesEffect [0x31, 0x30, 0x2E, 0x30, 0x2E, 0x30, 0x2E, 0x30, 0x2F, 0x38] [0x65, 0x75] n ↔
        PlainCIDR [0x31, 0x30, 0x2E, 0x30, 0x2E, 0x30, 0x2E, 0x30, 0x2F, 0x38] ∧ ¬SpansMapped n) :=
  takes_effect_iff_plain
    (show validateCIDRs [[0x31, 0x30, 0x2E, 0x30, 0x2E, 0x30, 0x2E, 0x30, 0x2F, 0x38]] = some _ by
      decide +kernel)
    (show charField 255 [0x65, 0x75] = some [0x65, 0x75] by decide +kernel) (List.mem_singleton_self _)

/-- The bare address `10.0.0.1` is accepted and not loaded. -/
theorem bare_address_skipped :
    validateCIDRs [[0x31, 0x30, 0x2E, 0x30, 0x2E, 0x30, 0x2E, 0x31]] =
      some [[0x31, 0x30, 0x2E, 0x30, 0x2E, 0x30, 0x2E, 0x31]] ∧
    ipNetwork [0x31, 0x30, 0x2E, 0x30, 0x2E, 0x30, 0x2E, 0x31] = some ⟨.v4 0x0A000001, 32⟩ ∧
    ¬TakesEffect [0x31, 0x30, 0x2E, 0x30, 0x2E, 0x30, 0x2E, 0x31] [0x65, 0x75]
      ⟨.v4 0x0A000001, 32⟩ ∧
    resolveRoute directRoute (fun _ => none) (some (loadRoutes directRoute
      ⟨[], [([0x31, 0x30, 0x2E, 0x30, 0x2E, 0x30, 0x2E, 0x31], [0x65, 0x75])], none⟩))
      [0x31, 0x30, 0x2E, 0x30, 0x2E, 0x30, 0x2E, 0x31] = directRoute := by
  refine ⟨by decide +kernel, by decide +kernel, fun h => ?_, by decide +kernel⟩
  obtain ⟨p, -, hp, -⟩ := h.loaded
  have hnone : parsePrefix [0x31, 0x30, 0x2E, 0x30, 0x2E, 0x30, 0x2E, 0x31] = none := by
    decide +kernel
  rw [hnone] at hp
  cases hp

end SplitProxy.Routing
