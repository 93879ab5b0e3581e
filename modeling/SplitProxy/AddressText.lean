import Mathlib.Data.List.Forall2
import SplitProxy.PyIPNetwork

/-!
# Reading address texts back

The texts Python takes for an address are the texts `netip.ParseAddr` reads as
the same address, and among them is what `netip.Addr.String` writes. A text is
taken as its fields between dots or colons.
-/
namespace SplitProxy.NetIP

open GoText PyIP

/-! ## Numerals -/

theorem ofDigits_append (base : Nat) (ds : List Nat) (d : Nat) :
    ofDigits base (ds ++ [d]) = ofDigits base ds * base + d := by
  rw [ofDigits, List.foldl_append]
  rfl

theorem ofDigits_digitsFrom {base : Nat} (hb : 1 < base) {fuel n : Nat} (hn : n < fuel) :
    ofDigits base (digitsFrom base fuel n) = n := by
  induction fuel generalizing n with
  | zero => omega
  | succ fuel ih =>
    rw [digitsFrom]
    by_cases h : n < base
    · rw [if_pos h]
      exact (congrArg (· + n) (Nat.zero_mul base)).trans (Nat.zero_add n)
    · rw [if_neg h, ofDigits_append]
      have hlt : n / base < n := Nat.div_lt_self (by omega) hb
      rw [ih (by omega), Nat.mul_comm]
      exact Nat.div_add_mod n base

theorem digitsFrom_ne_nil (base fuel n : Nat) : digitsFrom base (fuel + 1) n ≠ [] := by
  rw [digitsFrom]
  split
  · exact List.cons_ne_nil _ _
  · simp

theorem decimal_some {s : Bytes} {m : Nat} (h : decimal s = some m) :
    s ≠ [] ∧ ∀ c ∈ s, isDigit c = true := by
  simp only [decimal, Option.ite_none_right_eq_some, List.all_eq_true] at h
  exact h.1

theorem not_mem_digits {s : Bytes} {c : UInt8} (h : ∀ c ∈ s, isDigit c = true)
    (hc : isDigit c = false) : c ∉ s := by
  intro hm
  rw [h c hm] at hc
  cases hc

theorem atoi_digits {s : Bytes} {m : Nat} (h : decimal s = some m) (hm : m < 2 ^ 63) :
    atoi s = some (m : Int) := by
  obtain ⟨hne, hd⟩ := decimal_some h
  obtain ⟨c, r, rfl⟩ := List.exists_cons_of_ne_nil hne
  have hc := hd c List.mem_cons_self
  have hminus : c ≠ 0x2D := by
    rintro rfl
    exact absurd hc (by decide)
  have hplus : c ≠ 0x2B := by
    rintro rfl
    exact absurd hc (by decide)
  simp only [atoi, hminus, hplus, ↓reduceIte, h, Option.bind_some, hm]

theorem isDigit_digitByte : ∀ d < 10, isDigit (digitByte d) = true ∧ (digitByte d).toNat - 0x30 = d := by
  decide

/-- A numeral in base ten is read as the number it was written for. -/
theorem decimal_itoa (n : Nat) : decimal (itoa n) = some n := by
  have hlt := @digitsFrom_lt 10 (by decide) (n + 1) n
  have hne : itoa n ≠ [] := fun h => digitsFrom_ne_nil 10 n n (List.map_eq_nil_iff.mp h)
  have hd : (itoa n).all isDigit = true := by
    rw [List.all_eq_true, itoa, numeral]
    intro c hc
    obtain ⟨d, hd, rfl⟩ := List.mem_map.mp hc
    exact (isDigit_digitByte d (hlt d hd)).1
  have hval : (itoa n).map (fun c => c.toNat - 0x30) = digitsFrom 10 (n + 1) n := by
    rw [itoa, numeral, List.map_map]
    conv => rhs; rw [← List.map_id (digitsFrom 10 (n + 1) n)]
    exact List.map_congr_left fun d hd => (isDigit_digitByte d (hlt d hd)).2
  rw [decimal, if_pos ⟨hne, hd⟩, hval, ofDigits_digitsFrom (by decide) (Nat.lt_succ_self n)]

theorem portText_itoa (n : Nat) : PortText (itoa n) := by
  have hd := (decimal_some (decimal_itoa n)).2
  intro b hb
  have hb' := hd b hb
  refine ⟨?_, ?_, ?_⟩ <;> rintro rfl <;> exact absurd hb' (by decide)

theorem atoi_itoa {n : Nat} (h : n < 2 ^ 63) : atoi (itoa n) = some (n : Int) :=
  atoi_digits (decimal_itoa n) h

theorem hexVal_digitByte : ∀ d < 16, hexVal (digitByte d) = some d := by decide

theorem mapM_hexVal (ds : List Nat) (h : ∀ d ∈ ds, d < 16) :
    (ds.map digitByte).mapM hexVal = some ds := by
  induction ds with
  | nil => rfl
  | cons d ds ih =>
    rw [List.map_cons, List.mapM_cons, hexVal_digitByte d (h d List.mem_cons_self),
      ih fun x hx => h x (List.mem_cons_of_mem d hx)]
    rfl

theorem numeral_ne_nil (base n : Nat) : numeral base n ≠ [] := fun h =>
  digitsFrom_ne_nil base n n (List.map_eq_nil_iff.mp h)

/-- A group is read as it was written. -/
theorem parseHextet_numeral {n : Nat} (hn : n < 0x10000) : parseHextet (numeral 16 n) = some n := by
  have hne := numeral_ne_nil 16 n
  have hlen : (numeral 16 n).length ≤ 4 := length_numeral (by decide) hn
  rw [parseHextet, if_neg (not_or.mpr ⟨hne, by omega⟩), numeral,
    mapM_hexVal _ (digitsFrom_lt (by decide) (n + 1) n), Option.map_some,
    ofDigits_digitsFrom (by decide) (Nat.lt_succ_self n)]

theorem parseOctet_itoa : ∀ n < 0x100, parseOctet (itoa n) = some n := by decide +kernel

/-! ## Fields -/

theorem joined_cons_cons (sep : UInt8) (t u : Bytes) (us : List Bytes) :
    joined sep (t :: u :: us) = t ++ sep :: joined sep (u :: us) := rfl

theorem joined_eq_intercalate (sep : UInt8) (ts : List Bytes) :
    joined sep ts = [sep].intercalate ts := by
  induction ts with
  | nil => rfl
  | cons t ts ih =>
    cases ts with
    | nil => rw [joined, List.intercalate_singleton]
    | cons u us =>
      rw [joined_cons_cons, ih, List.intercalate_cons_cons, List.append_assoc]
      rfl

theorem joined_splitOn (sep : UInt8) (s : Bytes) : joined sep (s.splitOn sep) = s := by
  rw [joined_eq_intercalate, List.intercalate_splitOn]

theorem splitOn_joined {sep : UInt8} {ts : List Bytes} (h : ∀ t ∈ ts, sep ∉ t) (hne : ts ≠ []) :
    (joined sep ts).splitOn sep = ts := by
  rw [joined_eq_intercalate, List.splitOn_intercalate sep h hne]

theorem joined_append {sep : UInt8} {ts us : List Bytes} (ht : ts ≠ []) (hu : us ≠ []) :
    joined sep (ts ++ us) = joined sep ts ++ sep :: joined sep us := by
  induction ts with
  | nil => exact absurd rfl ht
  | cons t ts ih =>
    cases ts with
    | nil =>
      cases us with
      | nil => exact absurd rfl hu
      | cons u us => rfl
    | cons t' ts =>
      have h := ih (List.cons_ne_nil _ _)
      simp only [List.cons_append, joined_cons_cons, List.append_assoc] at h ⊢
      rw [h]

/-! ## IPv4 -/

theorem parseOctet_some {t : Bytes} {n : Nat} (h : parseOctet t = some n) :
    t ≠ [] ∧ (∀ c ∈ t, isDigit c = true) ∧ ofDigits 10 (t.map fun c => c.toNat - 0x30) = n ∧
      n ≤ 255 ∧ (1 < t.length → t.head? ≠ some 0x30) ∧ t.length ≤ 3 := by
  unfold parseOctet at h
  cases hd : decimal t with
  | none =>
    rw [hd] at h
    cases h
  | some m =>
    rw [hd] at h
    simp only [Option.ite_none_left_eq_some, Option.some.injEq] at h
    obtain ⟨hlen, hz, hle, rfl⟩ := h
    simp only [decimal, Option.ite_none_right_eq_some, Option.some.injEq, List.all_eq_true] at hd
    obtain ⟨⟨hne, hall⟩, hval⟩ := hd
    refine ⟨hne, hall, hval, by omega, fun hlong hh => hz ⟨?_, hh⟩, by omega⟩
    rintro rfl
    exact absurd hlong (by decide)

/-- Digits are read into the field, unless a zero leads or the value is too large. -/
theorem parseFields_digits {t : Bytes} (hd : ∀ c ∈ t, isDigit c = true) {val digLen : Nat}
    (hz : t ≠ [] → digLen = 0 ∧ val = 0 ∧ (1 < t.length → t.head? ≠ some 0x30) ∨ 0 < val)
    (hv : t.foldl (fun n c => n * 10 + (c.toNat - 0x30)) val ≤ 255) (fields : List Nat) (s : Bytes) :
    parseFields val digLen fields (t ++ s) =
      parseFields (t.foldl (fun n c => n * 10 + (c.toNat - 0x30)) val) (digLen + t.length) fields s := by
  have hmono : ∀ (u : Bytes) (m : Nat), m ≤ u.foldl (fun n c => n * 10 + (c.toNat - 0x30)) m := by
    intro u
    induction u with
    | nil => exact fun m => Nat.le_refl m
    | cons b u ihu =>
      intro m
      have h := ihu (m * 10 + (b.toNat - 0x30))
      rw [List.foldl_cons]
      omega
  induction t generalizing val digLen with
  | nil => rfl
  | cons c t ih =>
    have hc := hd c List.mem_cons_self
    have hle := hmono t (val * 10 + (c.toNat - 0x30))
    rw [List.foldl_cons] at hv
    have hfirst : ¬(digLen = 1 ∧ val = 0) := by
      rcases hz (List.cons_ne_nil c t) with ⟨h0, -⟩ | h0 <;> omega
    rw [List.cons_append, parseFields, if_pos hc, if_neg hfirst]
    simp only
    rw [if_neg (by omega), ih (fun b hb => hd b (List.mem_cons_of_mem c hb)) ?_ hv, List.foldl_cons,
      List.length_cons, Nat.add_right_comm, Nat.add_assoc]
    intro hne
    right
    rcases hz (List.cons_ne_nil c t) with ⟨-, -, h0⟩ | h0
    · have hlen : 1 < (c :: t).length := by
        rw [List.length_cons]
        exact Nat.succ_lt_succ (List.length_pos_iff.mpr hne)
      have hc0 : c ≠ 0x30 := fun he => h0 hlen (by rw [he]; rfl)
      have hn : c.toNat ≠ 0x30 := fun he => hc0 (UInt8.toNat_inj.mp he)
      simp only [isDigit, decide_eq_true_eq] at hc
      omega
    · omega

theorem parseFields_octet {t : Bytes} {n : Nat} (h : parseOctet t = some n) (fields : List Nat)
    (s : Bytes) : parseFields 0 0 fields (t ++ s) = parseFields n t.length fields s := by
  obtain ⟨-, hd, hval, hle, hz, -⟩ := parseOctet_some h
  have hfold : t.foldl (fun n c => n * 10 + (c.toNat - 0x30)) 0 = n := by
    rw [← hval, ofDigits, List.foldl_map]
  rw [parseFields_digits hd (fun _ => Or.inl ⟨rfl, rfl, hz⟩) (by omega), hfold, Nat.zero_add]

/-- The fields of a dotted text, each an octet. -/
theorem parseFields_octets {ts : List Bytes} {ns : List Nat}
    (h : List.Forall₂ (fun t n => parseOctet t = some n) ts ns) (hne : ts ≠ []) (fields : List Nat)
    (hlen : fields.length + ts.length = 4) :
    parseFields 0 0 fields (joined dot ts) = some (fields ++ ns) := by
  induction h generalizing fields with
  | nil => exact absurd rfl hne
  | @cons t n ts ns ht hts ih =>
    obtain ⟨htne, -⟩ := parseOctet_some ht
    cases ts with
    | nil =>
      cases hts
      have h3 : ¬fields.length < 3 := by
        rw [List.length_singleton] at hlen
        omega
      have hread := parseFields_octet ht fields []
      rw [List.append_nil] at hread
      rw [joined, hread, parseFields, if_neg h3]
    | cons u us =>
      have hu : joined dot (u :: us) ≠ [] := by
        obtain ⟨m, ms, hum, -, -⟩ := List.forall₂_cons_left_iff.mp hts
        obtain ⟨hune, -⟩ := parseOctet_some hum
        cases us with
        | nil => exact hune
        | cons v vs => simp [joined]
      simp only [List.length_cons] at hlen
      have hpos := List.length_pos_iff.mpr htne
      rw [joined_cons_cons, parseFields_octet ht, parseFields, if_neg (by decide), if_pos rfl,
        if_neg (not_or.mpr ⟨by omega, hu⟩), if_neg (by omega), ih (List.cons_ne_nil _ _),
        List.append_assoc]
      · rfl
      · simp only [List.length_append, List.length_cons, List.length_nil]
        omega

/-- The four fields of an address Python takes. -/
theorem ipv4FromString_fields {s : Bytes} {x : BitVec 32} (h : ipv4FromString s = some x) :
    ∃ a b c d, parseIPv4Fields s = some [a, b, c, d] ∧ (a ≤ 255 ∧ b ≤ 255 ∧ c ≤ 255 ∧ d ≤ 255) ∧
      x = BitVec.ofNat 32 (ofDigits 0x100 [a, b, c, d]) := by
  unfold ipv4FromString at h
  dsimp only at h
  split at h
  · cases h
  · rename_i hlen
    obtain ⟨os, hos, rfl⟩ := Option.map_eq_some_iff.mp h
    have hall := mapM_forall₂ hos
    have hl : os.length = 4 := hall.length_eq.symm.trans (not_not.mp hlen)
    have hread := parseFields_octets hall (List.splitOn_ne_nil _ _) []
      ((Nat.zero_add _).trans (not_not.mp hlen))
    rw [joined_splitOn] at hread
    match os, hl, hall with
    | [a, b, c, d], _, hall =>
      obtain ⟨t₁, ts, ha, hall, -⟩ := List.forall₂_cons_right_iff.mp hall
      obtain ⟨t₂, ts, hb, hall, -⟩ := List.forall₂_cons_right_iff.mp hall
      obtain ⟨t₃, ts, hc, hall, -⟩ := List.forall₂_cons_right_iff.mp hall
      obtain ⟨t₄, ts, hd, -, -⟩ := List.forall₂_cons_right_iff.mp hall
      exact ⟨a, b, c, d, hread, ⟨(parseOctet_some ha).2.2.2.1, (parseOctet_some hb).2.2.2.1,
        (parseOctet_some hc).2.2.2.1, (parseOctet_some hd).2.2.2.1⟩, rfl⟩

/-- A dotted text is its first field, a dot, and more. -/
theorem ipv4FromString_head {s : Bytes} {x : BitVec 32} (h : ipv4FromString s = some x) :
    ∃ t n more, s = t ++ dot :: more ∧ parseOctet t = some n := by
  unfold ipv4FromString at h
  dsimp only at h
  split at h
  · cases h
  · rename_i hlen
    obtain ⟨os, hos, -⟩ := Option.map_eq_some_iff.mp h
    have hall := mapM_forall₂ hos
    have hs := joined_splitOn dot s
    match hts : s.splitOn dot with
    | [] => exact absurd hts (List.splitOn_ne_nil _ _)
    | [t] =>
      rw [hts] at hlen
      simp at hlen
    | t :: u :: us =>
      rw [hts] at hall hs
      obtain ⟨n, ns, ht, -, -⟩ := List.forall₂_cons_left_iff.mp hall
      exact ⟨t, n, joined dot (u :: us), by rw [← hs, joined_cons_cons], ht⟩

/-- `netip.ParseAddr` reads it as the same address. -/
theorem parseAddr_of_ipv4 {s : Bytes} {x : BitVec 32} (h : ipv4FromString s = some x) :
    parseAddr s = some (.v4 x) := by
  obtain ⟨a, b, c, d, hf, -, rfl⟩ := ipv4FromString_fields h
  obtain ⟨t, n, more, rfl, ht⟩ := ipv4FromString_head h
  have hnone : t.find? isSpecial = none := by
    rw [List.find?_eq_none]
    intro b hb hsp
    have hdig := (parseOctet_some ht).2.1 b hb
    simp only [isSpecial, decide_eq_true_eq] at hsp
    rcases hsp with rfl | rfl | rfl <;> exact absurd hdig (by decide)
  have hfind : (t ++ dot :: more).find? isSpecial = some dot := by
    rw [List.find?_append, hnone, List.find?_cons_of_pos (by decide)]
    rfl
  rw [parseAddr, hfind]
  simp only [↓reduceIte, parseIPv4, hf, Option.map_some]

/-! ## IPv6 -/

theorem hexVal_lt {c : UInt8} {d : Nat} (h : hexVal c = some d) : d < 16 := by
  unfold hexVal at h
  split at h
  · cases h
    omega
  · split at h
    · cases h
      omega
    · split at h
      · cases h
        omega
      · cases h

theorem readHex_digits {t : Bytes} {ds : List Nat} (h : t.mapM hexVal = some ds) {off acc : Nat}
    (hoff : off + t.length ≤ 4) (hacc : acc < 16 ^ off) {s : Bytes}
    (hs : ∀ c ∈ s.head?, hexVal c = none) :
    readHex off acc (t ++ s) =
      some (off + t.length, ds.foldl (fun n d => n * 0x10 + d) acc, s) := by
  induction t generalizing off acc ds with
  | nil =>
    cases h
    cases s with
    | nil => rfl
    | cons c s =>
      rw [List.nil_append, readHex, hs c rfl]
      rfl
  | cons c t ih =>
    rw [List.mapM_cons] at h
    obtain ⟨d, hd, h⟩ := Option.bind_eq_some_iff.mp h
    obtain ⟨ds', hds, h⟩ := Option.bind_eq_some_iff.mp h
    cases h
    have hlt := hexVal_lt hd
    rw [List.length_cons] at hoff
    have hnext : acc * 0x10 + d < 16 ^ (off + 1) := by
      rw [Nat.pow_succ]
      omega
    have hmax : 16 ^ (off + 1) ≤ 16 ^ 4 := Nat.pow_le_pow_right (by decide) (by omega)
    rw [List.cons_append, readHex, hd]
    simp only
    rw [if_neg (by omega), if_neg (by omega), ih hds (by omega) hnext, List.length_cons,
      List.foldl_cons, Nat.add_assoc, Nat.add_comm 1]

theorem parseHextet_some {t : Bytes} {v : Nat} (h : parseHextet t = some v) :
    t ≠ [] ∧ t.length ≤ 4 ∧ ∃ ds, t.mapM hexVal = some ds ∧ ofDigits 0x10 ds = v := by
  simp only [parseHextet, Option.ite_none_left_eq_some, not_or, Option.map_eq_some_iff] at h
  obtain ⟨⟨hne, hlen⟩, ds, hds, hv⟩ := h
  exact ⟨hne, by omega, ds, hds, hv⟩

theorem readHex_hextet {t : Bytes} {v : Nat} (h : parseHextet t = some v) {s : Bytes}
    (hs : ∀ c ∈ s.head?, hexVal c = none) : readHex 0 0 (t ++ s) = some (t.length, v, s) := by
  obtain ⟨-, hlen, ds, hds, rfl⟩ := parseHextet_some h
  rw [readHex_digits hds (by omega) (by decide) hs, Nat.zero_add]
  rfl

theorem mapM_hexVal_head {c : UInt8} {t : Bytes} {ds : List Nat} (h : (c :: t).mapM hexVal = some ds) :
    (hexVal c).isSome = true := by
  rw [List.mapM_cons] at h
  obtain ⟨d, hd, -⟩ := Option.bind_eq_some_iff.mp h
  rw [hd]
  rfl

section Groups

variable {t s : Bytes} {v n : Nat} {groups : List Nat} {ellipsis : Option Nat}

theorem parseGroups_last (h : parseHextet t = some v) :
    parseGroups (n + 1) t groups ellipsis = some (groups ++ [v], ellipsis, []) := by
  have hread := readHex_hextet h (s := []) nofun
  have hpos := List.length_pos_iff.mpr (parseHextet_some h).1
  rw [List.append_nil] at hread
  rw [parseGroups, hread]
  simp only
  rw [if_neg (by omega)]

theorem parseGroups_next (h : parseHextet t = some v) {c : UInt8} (hc : c ≠ colon) :
    parseGroups (n + 1) (t ++ colon :: c :: s) groups ellipsis =
      parseGroups n (c :: s) (groups ++ [v]) ellipsis := by
  have hpos := List.length_pos_iff.mpr (parseHextet_some h).1
  rw [parseGroups, readHex_hextet h (fun c hc => by cases hc; decide)]
  simp only
  rw [if_neg (by omega), if_neg (by decide), if_neg (not_not.mpr rfl), if_neg hc]

theorem parseGroups_ellipsis (h : parseHextet t = some v) :
    parseGroups (n + 1) (t ++ colon :: colon :: s) groups none =
      if s = [] then some (groups ++ [v], some (groups.length + 1), [])
      else parseGroups n s (groups ++ [v]) (some (groups.length + 1)) := by
  have hpos := List.length_pos_iff.mpr (parseHextet_some h).1
  rw [parseGroups, readHex_hextet h (fun c hc => by cases hc; decide)]
  simp only
  rw [if_neg (by omega), if_neg (by decide), if_neg (not_not.mpr rfl), if_pos trivial,
    if_neg (by decide)]

theorem digit_hexVal {c : UInt8} (h : isDigit c = true) : hexVal c = some (c.toNat - 0x30) := by
  simp only [isDigit, decide_eq_true_eq] at h
  rw [hexVal, if_pos h]

theorem mapM_digits {t : Bytes} (h : ∀ c ∈ t, isDigit c = true) :
    t.mapM hexVal = some (t.map fun c => c.toNat - 0x30) := by
  induction t with
  | nil => rfl
  | cons c t ih =>
    rw [List.mapM_cons, digit_hexVal (h c List.mem_cons_self),
      ih fun b hb => h b (List.mem_cons_of_mem c hb)]
    rfl

/-- A dotted tail gives two groups. -/
theorem parseGroups_ipv4 {x : BitVec 32} (h : ipv4FromString t = some x)
    (he : ellipsis ≠ none ∨ groups.length = 6) (hl : groups.length ≤ 6) :
    parseGroups (n + 1) t groups ellipsis =
      some (groups ++ [x.toNat / 0x10000, x.toNat % 0x10000], ellipsis, []) := by
  obtain ⟨a, b, c, d, hf, hle, rfl⟩ := ipv4FromString_fields h
  obtain ⟨o, m, more, rfl, ho⟩ := ipv4FromString_head h
  obtain ⟨hne, hdig, -, -, -, hlen⟩ := parseOctet_some ho
  have hread := @readHex_digits o _ (mapM_digits hdig) 0 0 (by omega) (by decide) (dot :: more)
    (fun c hc => by cases hc; decide)
  have hpos := List.length_pos_iff.mpr hne
  have hval : (BitVec.ofNat 32 (ofDigits 0x100 [a, b, c, d])).toNat =
      ((a * 0x100 + b) * 0x100 + c) * 0x100 + d := by
    rw [BitVec.toNat_ofNat, Nat.mod_eq_of_lt]
    · simp only [ofDigits, List.foldl_cons, List.foldl_nil, Nat.zero_mul, Nat.zero_add]
    · simp only [ofDigits, List.foldl_cons, List.foldl_nil]
      omega
  rw [parseGroups, hread]
  simp only
  have hno : ¬(ellipsis = none ∧ groups.length ≠ 6) := by
    rintro ⟨hn, h6⟩
    exact he.elim (fun h => h hn) h6
  rw [if_neg (by omega), if_pos trivial, if_neg hno, if_neg (by omega), hf, hval]
  have hhi : (((a * 0x100 + b) * 0x100 + c) * 0x100 + d) / 0x10000 = a * 0x100 + b := by omega
  have hlo : (((a * 0x100 + b) * 0x100 + c) * 0x100 + d) % 0x10000 = c * 0x100 + d := by omega
  rw [hhi, hlo]

end Groups

/-- Fields and the groups they stand for; the last field may be dotted. -/
inductive Reads : List Bytes → List Nat → Prop
  | nil : Reads [] []
  | hextet {t : Bytes} {v : Nat} {ts : List Bytes} {vs : List Nat} : parseHextet t = some v →
      Reads ts vs → Reads (t :: ts) (v :: vs)
  | ipv4 {t : Bytes} {x : BitVec 32} : ipv4FromString t = some x →
      Reads [t] [x.toNat / 0x10000, x.toNat % 0x10000]

theorem Reads.length_le {ts : List Bytes} {vs : List Nat} (h : Reads ts vs) : ts.length ≤ vs.length := by
  induction h with
  | nil => exact Nat.le_refl _
  | hextet _ _ ih => exact Nat.succ_le_succ ih
  | ipv4 _ => exact Nat.le_succ 1

theorem reads_of_hextets {ts : List Bytes} {vs : List Nat}
    (h : List.Forall₂ (fun t v => parseHextet t = some v) ts vs) : Reads ts vs := by
  induction h with
  | nil => exact .nil
  | cons ht _ ih => exact .hextet ht ih

theorem hextet_head {t : Bytes} {v : Nat} (h : parseHextet t = some v) :
    ∃ c s, t = c :: s ∧ c ≠ colon := by
  obtain ⟨hne, -, ds, hds, -⟩ := parseHextet_some h
  obtain ⟨c, s, rfl⟩ := List.exists_cons_of_ne_nil hne
  refine ⟨c, s, rfl, ?_⟩
  rintro rfl
  exact absurd (mapM_hexVal_head hds) (by decide)

/-- Fields that are read begin with no colon. -/
theorem Reads.head {ts : List Bytes} {vs : List Nat} (h : Reads ts vs) (hne : ts ≠ []) (s : Bytes) :
    ∃ c r, joined colon ts ++ s = c :: r ∧ c ≠ colon := by
  cases h with
  | nil => exact absurd rfl hne
  | @hextet t v ts vs ht hts =>
    obtain ⟨c, r, rfl, hc⟩ := hextet_head ht
    cases ts with
    | nil => exact ⟨c, r ++ s, rfl, hc⟩
    | cons u us => exact ⟨c, r ++ colon :: joined colon (u :: us) ++ s, rfl, hc⟩
  | @ipv4 t x hx =>
    obtain ⟨o, m, more, rfl, ho⟩ := ipv4FromString_head hx
    obtain ⟨hne, hdig, -⟩ := parseOctet_some ho
    obtain ⟨c, r, rfl⟩ := List.exists_cons_of_ne_nil hne
    refine ⟨c, r ++ dot :: more ++ s, by simp [joined], ?_⟩
    rintro rfl
    exact absurd (hdig colon List.mem_cons_self) (by decide)

theorem parseGroups_reads {ts : List Bytes} {vs : List Nat} (h : Reads ts vs) (hne : ts ≠ [])
    {n : Nat} (hn : ts.length ≤ n) {groups : List Nat} {ellipsis : Option Nat}
    (hl : groups.length + vs.length ≤ 8) (he : ellipsis ≠ none ∨ groups.length + vs.length = 8) :
    parseGroups n (joined colon ts) groups ellipsis = some (groups ++ vs, ellipsis, []) := by
  induction h generalizing n groups with
  | nil => exact absurd rfl hne
  | @hextet t v ts vs ht hts ih =>
    obtain ⟨n, rfl⟩ : ∃ k, n = k + 1 := ⟨n - 1, by rw [List.length_cons] at hn; omega⟩
    cases ts with
    | nil =>
      cases hts
      exact parseGroups_last ht
    | cons u us =>
      obtain ⟨c, r, hj, hc⟩ := hts.head (List.cons_ne_nil _ _) []
      rw [List.append_nil] at hj
      simp only [List.length_cons] at hn hl he
      have hlen : (groups ++ [v]).length = groups.length + 1 := by
        rw [List.length_append, List.length_singleton]
      rw [joined_cons_cons, hj, parseGroups_next ht hc, ← hj,
        ih (List.cons_ne_nil _ _) (by rw [List.length_cons]; omega) (by omega)
          (he.imp id fun h => by omega), List.append_assoc]
      rfl
  | @ipv4 t x hx =>
    obtain ⟨n, rfl⟩ : ∃ k, n = k + 1 := ⟨n - 1, by rw [List.length_singleton] at hn; omega⟩
    simp only [List.length_cons, List.length_nil] at hl he
    exact parseGroups_ipv4 hx (he.imp id fun h => by omega) (by omega)

/-- The fields in front of the ellipsis. -/
theorem parseGroups_above {ts : List Bytes} {vs : List Nat}
    (h : List.Forall₂ (fun t v => parseHextet t = some v) ts vs) (hne : ts ≠ []) (n : Nat)
    (groups : List Nat) (s : Bytes) :
    parseGroups (n + ts.length) (joined colon ts ++ colon :: colon :: s) groups none =
      if s = [] then some (groups ++ vs, some (groups.length + vs.length), [])
      else parseGroups n s (groups ++ vs) (some (groups.length + vs.length)) := by
  induction h generalizing groups with
  | nil => exact absurd rfl hne
  | @cons t v ts vs ht hts ih =>
    cases ts with
    | nil =>
      cases hts
      exact parseGroups_ellipsis ht
    | cons u us =>
      obtain ⟨c, r, hj, hc⟩ :=
        (reads_of_hextets hts).head (List.cons_ne_nil _ _) (colon :: colon :: s)
      have hlen : (groups ++ [v]).length = groups.length + 1 := by
        rw [List.length_append, List.length_singleton]
      have hsum : groups.length + 1 + vs.length = groups.length + (v :: vs).length := by
        rw [List.length_cons]
        omega
      rw [joined_cons_cons, List.append_assoc, List.cons_append, hj, List.length_cons, ← Nat.add_assoc,
        parseGroups_next ht hc, ← hj, ih (List.cons_ne_nil _ _), hlen, hsum, List.append_assoc]
      rfl

theorem parseBody_plain {c : UInt8} {s : Bytes} (hc : c ≠ colon) :
    parseBody (c :: s) = (parseGroups 8 (c :: s) [] none).bind expand := by
  cases s with
  | nil => rfl
  | cons d s => rw [parseBody, if_neg (fun h => hc h.1)]

/-- Eight groups without an ellipsis. -/
theorem parseBody_full {ts : List Bytes} {vs : List Nat} (h : Reads ts vs) (hl : vs.length = 8) :
    parseBody (joined colon ts) = some vs := by
  have hne : ts ≠ [] := by
    rintro rfl
    cases h
    cases hl
  obtain ⟨c, r, hj, hc⟩ := h.head hne []
  rw [List.append_nil] at hj
  rw [hj, parseBody_plain hc, ← hj, parseGroups_reads h hne (by rw [← hl]; exact h.length_le)
    (by rw [List.length_nil]; omega) (Or.inr (by rw [List.length_nil]; omega)), List.nil_append,
    Option.bind_some, expand]
  simp only [ne_eq, not_true_eq_false, ↓reduceIte, hl, Nat.lt_irrefl, Option.isSome_none,
    Bool.false_eq_true]

theorem expand_ellipsis {va vb : List Nat} (hl : va.length + vb.length ≤ 7) :
    expand (va ++ vb, some va.length, []) =
      some (va ++ List.replicate (8 - (va.length + vb.length)) 0 ++ vb) := by
  have hlen : (va ++ vb).length = va.length + vb.length := List.length_append
  rw [expand]
  simp only [ne_eq, not_true_eq_false, ↓reduceIte]
  rw [if_pos (by omega), hlen, List.take_left, List.drop_left]

/-- Groups around an ellipsis, which stands for the missing zeros. -/
theorem parseBody_ellipsis {ts us : List Bytes} {va vb : List Nat}
    (ha : List.Forall₂ (fun t v => parseHextet t = some v) ts va) (hb : Reads us vb)
    (hl : va.length + vb.length ≤ 7) :
    parseBody (joined colon ts ++ colon :: colon :: joined colon us) =
      some (va ++ List.replicate (8 - (va.length + vb.length)) 0 ++ vb) := by
  have hbl := hb.length_le
  by_cases hts : ts = []
  · subst hts
    cases ha
    rw [show joined colon [] = [] from rfl, List.nil_append, parseBody, if_pos ⟨rfl, rfl⟩]
    by_cases hus : us = []
    · subst hus
      cases hb
      rfl
    · obtain ⟨c, r, hj, -⟩ := hb.head hus []
      rw [List.append_nil] at hj
      have hjne : joined colon us ≠ [] := by
        rw [hj]
        exact List.cons_ne_nil _ _
      rw [List.length_nil] at hl
      rw [if_neg hjne, parseGroups_reads hb hus (by omega) (by rw [List.length_nil]; omega)
        (Or.inl (Option.some_ne_none _)), List.nil_append, Option.bind_some]
      exact @expand_ellipsis [] vb hl
  · obtain ⟨c, r, hj, hc⟩ := (reads_of_hextets ha).head hts (colon :: colon :: joined colon us)
    have hlen : ts.length = va.length := ha.length_eq
    have habove := parseGroups_above ha hts (8 - ts.length) [] (joined colon us)
    rw [Nat.sub_add_cancel (by omega), List.nil_append, List.length_nil, Nat.zero_add] at habove
    rw [hj, parseBody_plain hc, ← hj, habove]
    by_cases hus : us = []
    · subst hus
      cases hb
      rw [if_pos (show joined colon [] = [] from rfl), Option.bind_some]
      have hexp := @expand_ellipsis va [] hl
      rw [List.append_nil] at hexp
      exact hexp
    · obtain ⟨c', r', hj', -⟩ := hb.head hus []
      rw [List.append_nil] at hj'
      have hjne : joined colon us ≠ [] := by
        rw [hj']
        exact List.cons_ne_nil _ _
      rw [if_neg hjne, parseGroups_reads hb hus (by omega) (by omega)
        (Or.inl (Option.some_ne_none _)), Option.bind_some]
      exact expand_ellipsis hl

/-! ## What Python takes -/

/-- The parts after a dotted tail was replaced, and what they were. -/
def Tailed (parts parts' : List Bytes) : Prop :=
  parts' = parts ∨ ∃ front last x, parts = front ++ [last] ∧ ipv4FromString last = some x ∧
    parts' = front ++ [numeral 16 (x.toNat / 0x10000), numeral 16 (x.toNat % 0x10000)]

theorem hexSuffix_some {parts parts' : List Bytes} (h : hexSuffix parts = some parts') :
    Tailed parts parts' := by
  unfold hexSuffix at h
  cases hl : parts.getLast? with
  | none =>
    rw [hl] at h
    cases h
  | some last =>
    rw [hl] at h
    simp only at h
    split at h
    · obtain ⟨x, hx, rfl⟩ := Option.map_eq_some_iff.mp h
      obtain ⟨front, rfl⟩ := List.getLast?_eq_some_iff.mp hl
      exact Or.inr ⟨front, last, x, rfl, hx, by rw [List.dropLast_concat]⟩
    · cases h
      exact Or.inl rfl

theorem reads_append_ipv4 {ts : List Bytes} {vs : List Nat}
    (h : List.Forall₂ (fun t v => parseHextet t = some v) ts vs) {last : Bytes} {x : BitVec 32}
    (hx : ipv4FromString last = some x) :
    Reads (ts ++ [last]) (vs ++ [x.toNat / 0x10000, x.toNat % 0x10000]) := by
  induction h with
  | nil => exact .ipv4 hx
  | cons ht _ ih => exact .hextet ht ih

/-- The fields from one on, when the tail is not before it. -/
theorem Tailed.reads {parts parts' : List Bytes} (h : Tailed parts parts') {k : Nat}
    (hk : parts' = parts ∨ k < parts.length) {vs : List Nat}
    (hv : (parts'.drop k).mapM parseHextet = some vs) : Reads (parts.drop k) vs := by
  rcases h with rfl | ⟨front, last, x, rfl, hx, rfl⟩
  · exact reads_of_hextets (mapM_forall₂ hv)
  · have hle : k ≤ front.length := by
      rcases hk with hk | hk
      · have hlen := congrArg List.length hk
        simp at hlen
      · rw [List.length_append, List.length_singleton] at hk
        omega
    have hlt := x.isLt
    rw [List.drop_append_of_le_length hle, List.mapM_append] at hv
    obtain ⟨vf, hvf, hv⟩ := Option.bind_eq_some_iff.mp hv
    obtain ⟨vl, hvl, hv⟩ := Option.bind_eq_some_iff.mp hv
    rw [List.mapM_cons, List.mapM_cons, parseHextet_numeral (by omega),
      parseHextet_numeral (Nat.mod_lt _ (by decide))] at hvl
    cases hvl
    cases hv
    rw [List.drop_append_of_le_length hle]
    exact reads_append_ipv4 (mapM_forall₂ hvf) hx

/-- A part that is skipped is no dotted tail. -/
theorem Tailed.split {parts parts' : List Bytes} (h : Tailed parts parts') {i : Nat}
    (hlt : i + 1 < parts'.length) (hi : parts'[i]? = some []) :
    parts.take i = parts'.take i ∧ parts[i]? = some [] ∧ i + 1 < parts.length ∧
      ((parts'.drop (i + 1)).getLast? = some [] → parts' = parts) := by
  rcases h with rfl | ⟨front, last, x, rfl, hx, rfl⟩
  · exact ⟨rfl, hi, hlt, fun _ => rfl⟩
  · have hfront : i < front.length := by
      by_contra hge
      rw [List.getElem?_append_right (by omega)] at hi
      have hmem := List.mem_of_getElem? hi
      simp only [List.mem_cons, List.not_mem_nil, or_false] at hmem
      rcases hmem with hn | hn
      · exact numeral_ne_nil _ _ hn.symm
      · exact numeral_ne_nil _ _ hn.symm
    refine ⟨?_, ?_, ?_, fun hlast => ?_⟩
    · rw [List.take_append_of_le_length (by omega), List.take_append_of_le_length (by omega)]
    · rw [List.getElem?_append_left hfront] at hi ⊢
      exact hi
    · rw [List.length_append, List.length_singleton]
      omega
    · rw [List.drop_append_of_le_length (by omega), List.getLast?_append] at hlast
      simp only [List.getLast?_cons_cons, List.getLast?_singleton, Option.some_or,
        Option.some.injEq] at hlast
      exact absurd hlast (numeral_ne_nil _ _)

theorem skips_singleton {parts : List Bytes} {i : Nat} (h : skips parts = [i]) :
    0 < i ∧ i + 1 < parts.length ∧ parts[i]? = some [] := by
  have hmem : i ∈ skips parts := by
    rw [h]
    exact List.mem_singleton_self i
  simpa using (List.mem_filter.mp hmem).2

/-- The parts around a skipped one. -/
theorem joined_around {parts : List Bytes} {i : Nat} (h0 : 0 < i) (hlt : i + 1 < parts.length)
    (hi : parts[i]? = some []) : joined colon parts =
      joined colon (parts.take i) ++ colon :: colon :: joined colon (parts.drop (i + 1)) := by
  have htake : parts.take i ≠ [] := by
    rw [← List.length_pos_iff, List.length_take]
    omega
  have hdrop : parts.drop (i + 1) ≠ [] := by
    rw [← List.length_pos_iff, List.length_drop]
    omega
  obtain ⟨hlt', hget⟩ := List.getElem?_eq_some_iff.mp hi
  have hparts : parts = parts.take i ++ [] :: parts.drop (i + 1) := by
    rw [← hget, List.getElem_cons_drop, List.take_append_drop]
  conv_lhs => rw [hparts]
  rw [joined_append htake (List.cons_ne_nil _ _)]
  obtain ⟨u, us, hu⟩ := List.exists_cons_of_ne_nil hdrop
  rw [hu, joined_cons_cons]
  rfl

theorem groupsAbove_some {parts above : List Bytes} (h : groupsAbove parts = some above) :
    joined colon parts = joined colon above ∧ (above = parts ∨ above = []) := by
  unfold groupsAbove at h
  split at h
  · rename_i hh
    split at h
    · rename_i hlen
      cases h
      obtain ⟨t, rfl⟩ := List.length_eq_one_iff.mp hlen
      cases hh
      exact ⟨rfl, Or.inr rfl⟩
    · cases h
  · cases h
    exact ⟨rfl, Or.inl rfl⟩

theorem groupsBelow_some {parts below : List Bytes} (h : groupsBelow parts = some below) :
    parts.getLast? ≠ some [] ∧ below = parts ∨ parts = [[]] ∧ below = [] := by
  unfold groupsBelow at h
  split at h
  · rename_i hh
    split at h
    · rename_i hlen
      cases h
      obtain ⟨t, rfl⟩ := List.length_eq_one_iff.mp hlen
      cases hh
      exact Or.inr ⟨rfl, rfl⟩
    · cases h
  · rename_i hh
    cases h
    exact Or.inl ⟨hh, rfl⟩

/-- What Python reads as the groups of an address, `netip` reads as the same groups. -/
theorem parseBody_of_ipv6 {s : Bytes} {x : BitVec 128} (h : ipv6FromString s = some x) :
    ∃ groups, parseBody s = some groups ∧ x = BitVec.ofNat 128 (ofDigits 0x10000 groups) := by
  unfold ipv6FromString at h
  dsimp only at h
  split at h
  · cases h
  · cases hp : hexSuffix (s.splitOn colon) with
    | none =>
      rw [hp] at h
      cases h
    | some parts' =>
      rw [hp] at h
      simp only at h
      split at h
      · cases h
      · obtain ⟨groups, hg, rfl⟩ := Option.map_eq_some_iff.mp h
        refine ⟨groups, ?_, rfl⟩
        have ht : Tailed (s.splitOn colon) parts' := hexSuffix_some hp
        have hs := joined_splitOn colon s
        have hne : s.splitOn colon ≠ [] := List.splitOn_ne_nil _ _
        generalize s.splitOn colon = parts at ht hs hne
        subst hs
        unfold hextetsOf at hg
        split at hg
        · split at hg
          · cases hg
          · rename_i hlen
            have hl : groups.length = 8 :=
              (mapM_forall₂ hg).length_eq.symm.trans (not_not.mp hlen)
            rw [← List.drop_zero (l := parts')] at hg
            exact parseBody_full (ht.reads (Or.inr (List.length_pos_iff.mpr hne)) hg) hl
        · rename_i i hi
          obtain ⟨h0, hlt, hempty⟩ := skips_singleton hi
          obtain ⟨htake, hempty', hlt', hsame⟩ := ht.split hlt hempty
          rw [joined_around h0 hlt' hempty', htake]
          split at hg
          · rename_i above below ha hb
            split at hg
            · cases hg
            · rename_i hlen
              split at hg
              · rename_i hi lo hhi hlo
                cases hg
                have hA := mapM_forall₂ hhi
                have hB := mapM_forall₂ hlo
                have hla := hA.length_eq
                have hlb := hB.length_eq
                rw [(groupsAbove_some ha).1, hla, hlb]
                rcases groupsBelow_some hb with ⟨-, rfl⟩ | ⟨hdrop, rfl⟩
                · exact parseBody_ellipsis hA (ht.reads (Or.inr hlt') hlo) (by omega)
                · have hnil : lo = [] := (Option.some.inj hlo).symm
                  subst hnil
                  rw [← hsame (by rw [hdrop]; rfl), hdrop]
                  exact @parseBody_ellipsis _ [] _ _ hA .nil (by omega)
              · cases hg
          · cases hg
        · cases hg

theorem parseAddr_of_ipv6 {s : Bytes} {x : BitVec 128} (h : ipv6FromString s = some x) :
    parseAddr s = some (.v6 x []) := by
  obtain ⟨groups, hg, rfl⟩ := parseBody_of_ipv6 h
  exact parseAddr_withZone hg []

/-! ## What `netip` writes -/

/-- A number from its places. -/
theorem ofDigits_places (b n k : Nat) :
    ofDigits b ((List.range k).map fun i => n / b ^ (k - 1 - i) % b) = n % b ^ k := by
  induction k generalizing n with
  | zero => rw [Nat.pow_zero, Nat.mod_one]; rfl
  | succ k ih =>
    have hplaces : (List.range k).map (fun i => n / b ^ (k + 1 - 1 - i) % b) =
        (List.range k).map (fun i => n / b / b ^ (k - 1 - i) % b) := by
      apply List.map_congr_left
      intro i hi
      have hik := List.mem_range.mp hi
      rw [Nat.div_div_eq_div_mul, ← Nat.pow_succ', show k + 1 - 1 - i = (k - 1 - i).succ by omega]
    rw [List.range_succ, List.map_append, hplaces, List.map_singleton, ofDigits_append, ih,
      Nat.add_sub_cancel, Nat.sub_self, Nat.pow_zero, Nat.div_one, Nat.pow_succ', Nat.mod_mul,
      Nat.add_comm, Nat.mul_comm]

theorem byteAt_lt {w : Nat} (x : BitVec w) (i : Nat) : byteAt x i < 0x100 := Nat.mod_lt _ (by decide)

theorem numeral_byte {base n : Nat} (hb : 0 < base) : ∀ c ∈ numeral base n, ∃ d < base, c = digitByte d := by
  intro c hc
  obtain ⟨d, hd, rfl⟩ := List.mem_map.mp hc
  exact ⟨d, digitsFrom_lt hb _ _ d hd, rfl⟩

theorem ipv4FromString_string (x : BitVec 32) : ipv4FromString (ipv4String x) = some x := by
  have hdot : ∀ t ∈ (List.range 4).map (fun i => itoa (byteAt x i)), dot ∉ t := by
    intro t ht
    obtain ⟨i, -, rfl⟩ := List.mem_map.mp ht
    intro hd
    obtain ⟨d, hlt, he⟩ := numeral_byte (by decide) dot hd
    have hno : ∀ d < 10, dot ≠ digitByte d := by decide
    exact hno d hlt he
  have hread : ((List.range 4).map (fun i => itoa (byteAt x i))).mapM parseOctet =
      some ((List.range 4).map (byteAt x)) := by
    have hone : ∀ l : List Nat, (l.map (fun i => itoa (byteAt x i))).mapM parseOctet =
        some (l.map (byteAt x)) := by
      intro l
      induction l with
      | nil => rfl
      | cons i l ih =>
        rw [List.map_cons, List.mapM_cons, parseOctet_itoa _ (byteAt_lt x i), ih]
        rfl
    exact hone _
  have hval : ofDigits 0x100 ((List.range 4).map (byteAt x)) = x.toNat := by
    have h := ofDigits_places 0x100 x.toNat 4
    rw [Nat.mod_eq_of_lt (Nat.lt_of_lt_of_le x.isLt (by decide))] at h
    exact h
  rw [ipv4FromString, ipv4String, splitOn_joined hdot (by simp)]
  simp only [List.length_map, List.length_range, ne_eq, not_true_eq_false, ↓reduceIte, hread,
    Option.map_some, hval, BitVec.ofNat_toNat, BitVec.setWidth_eq]

theorem take_leadingZeros (gs : List Nat) :
    gs.take (leadingZeros gs) = List.replicate (leadingZeros gs) 0 := by
  induction gs with
  | nil => rfl
  | cons g gs ih =>
    cases g with
    | zero => rw [leadingZeros, List.take_succ_cons, List.replicate_succ, ih]
    | succ g => rfl

/-- The run found consists of zeros. -/
theorem zeroRun_zeros {full : List Nat} {i : Nat} {best : Nat × Nat}
    (hb : (full.drop best.1).take best.2 = List.replicate best.2 0) :
    (full.drop (zeroRun i (full.drop i) best).1).take (zeroRun i (full.drop i) best).2 =
      List.replicate (zeroRun i (full.drop i) best).2 0 := by
  induction hn : (full.drop i) generalizing i best with
  | nil => exact hb
  | cons g gs ih =>
    have hgs : full.drop (i + 1) = gs := by
      rw [← List.drop_drop, hn, List.drop_one, List.tail_cons]
    rw [zeroRun]
    apply ih _ hgs
    split
    · dsimp only
      rw [hn, take_leadingZeros]
    · exact hb

theorem forall₂_numeral {gs : List Nat} (h : ∀ g ∈ gs, g < 0x10000) :
    List.Forall₂ (fun t v => parseHextet t = some v) (gs.map (numeral 16)) gs := by
  induction gs with
  | nil => exact .nil
  | cons g gs ih =>
    exact .cons (parseHextet_numeral (h g List.mem_cons_self))
      (ih fun v hv => h v (List.mem_cons_of_mem g hv))

/-- The groups are read as they were written. -/
theorem parseBody_groupsString {gs : List Nat} (hl : gs.length = 8) (h : ∀ g ∈ gs, g < 0x10000) :
    parseBody (groupsString gs) = some gs := by
  unfold groupsString
  dsimp only
  by_cases hz : (zeroRun 0 gs (0, 0)).2 = 0
  · rw [if_pos hz]
    exact parseBody_full (reads_of_hextets (forall₂_numeral h)) hl
  · rw [if_neg hz]
    have hspec := @zeroRun_spec 0 8 gs (0, 0) (by omega) (Or.inl rfl)
    have hzeros := @zeroRun_zeros gs 0 (0, 0) rfl
    rw [List.drop_zero] at hzeros
    generalize zeroRun 0 gs (0, 0) = run at hz hspec hzeros
    obtain ⟨a, l⟩ := run
    simp only at hz hspec hzeros ⊢
    have hread := parseBody_ellipsis
      (forall₂_numeral fun g hg => h g (List.mem_of_mem_take hg) : List.Forall₂ _ _ (gs.take a))
      (reads_of_hextets (forall₂_numeral fun g hg => h g (List.mem_of_mem_drop hg)) :
        Reads _ (gs.drop (a + l))) (by simp only [List.length_take, List.length_drop]; omega)
    have hcount : 8 - ((gs.take a).length + (gs.drop (a + l)).length) = l := by
      simp only [List.length_take, List.length_drop]
      omega
    have hwhole : gs.take a ++ List.replicate l 0 ++ gs.drop (a + l) = gs := by
      rw [← hzeros, ← List.drop_drop, List.append_assoc, List.take_append_drop,
        List.take_append_drop]
    rw [hcount, hwhole] at hread
    simpa [hexJoined] using hread

theorem ofDigits_hextets (x : BitVec 128) : ofDigits 0x10000 (hextets x) = x.toNat := by
  have h := ofDigits_places 0x10000 x.toNat 8
  rw [Nat.mod_eq_of_lt (Nat.lt_of_lt_of_le x.isLt (by decide))] at h
  exact h

/-- `::ffff:` and a dotted tail. -/
theorem parseBody_mapped {s : Bytes} {y : BitVec 32} (h : ipv4FromString s = some y) :
    parseBody (mappedMark ++ s) = some (List.replicate 5 0 ++
      [0xFFFF, y.toNat / 0x10000, y.toNat % 0x10000]) := by
  have hf : parseHextet [0x66, 0x66, 0x66, 0x66] = some 0xFFFF := by decide
  exact @parseBody_ellipsis [] [[0x66, 0x66, 0x66, 0x66], s] [] _ .nil (.hextet hf (.ipv4 h))
    (Nat.le_of_ble_eq_true rfl)

theorem mapped_toNat {x : BitVec 128} (h : (Addr.v6 x []).is4In6 = true) :
    x.toNat = 0xFFFF * 2 ^ 32 + (x.setWidth 32).toNat := by
  simp only [Addr.is4In6, decide_eq_true_eq] at h
  have hn := congrArg BitVec.toNat h
  rw [BitVec.toNat_ushiftRight, Nat.shiftRight_eq_div_pow] at hn
  rw [BitVec.toNat_setWidth]
  have hdiv := Nat.div_add_mod x.toNat (2 ^ 32)
  rw [show x.toNat / 2 ^ 32 = 0xFFFF from hn] at hdiv
  omega

/-- `netip.ParseAddr` reads an address back from its text. -/
theorem parseAddr_string {a : Addr} (h : a.isValid = true) : parseAddr a.string = some a := by
  cases a with
  | invalid => cases h
  | v4 x => exact parseAddr_of_ipv4 (ipv4FromString_string x)
  | v6 x z =>
    by_cases hm : (Addr.v6 x []).is4In6 = true
    · have hm' : (Addr.v6 x z).is4In6 = true := hm
      rw [Addr.string, if_pos hm', parseAddr_withZone (parseBody_mapped (ipv4FromString_string _)),
        addrOf]
      have hval : BitVec.ofNat 128 (ofDigits 0x10000 (List.replicate 5 0 ++
          [0xFFFF, (x.setWidth 32).toNat / 0x10000, (x.setWidth 32).toNat % 0x10000])) = x := by
        apply BitVec.eq_of_toNat_eq
        rw [BitVec.toNat_ofNat, mapped_toNat hm]
        have hlt := (x.setWidth 32).isLt
        simp only [ofDigits, List.replicate, List.cons_append, List.nil_append, List.foldl_cons,
          List.foldl_nil]
        omega
      rw [hval]
    · have hm' : ¬(Addr.v6 x z).is4In6 = true := hm
      rw [Addr.string, if_neg hm', ipv6String, parseAddr_withZone
        (parseBody_groupsString (by simp [hextets]) (hextet_lt x)), addrOf, ofDigits_hextets,
        BitVec.ofNat_toNat, BitVec.setWidth_eq]

end SplitProxy.NetIP
