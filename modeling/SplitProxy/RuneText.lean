import SplitProxy.GoText

/-!
# Runes and the bytes they are written with

Writing a rune and reading it back, strings read one rune at a time, and what
`strings.ToLower` does to the white space around a string.
-/
namespace SplitProxy

/-! ## Lower case twice -/

/-- No rune from `lo` to `hi` is in the range; with `double` every second one is
meant. -/
def CaseRange.misses (lo hi : Nat) (double : Bool) (c : CaseRange) : Bool :=
  Nat.blt hi c.lo || Nat.blt c.hi lo || (double && Nat.beq c.stride 2 && Nat.beq ((lo + c.lo) % 2) 1)

/-- What the range moves its runes to is in no range. -/
def CaseRange.lands (c : CaseRange) : Bool :=
  let lo := (c.lo + c.delta).toNat
  let hi := (c.hi + c.delta).toNat
  (Nat.ble 0x80 lo || Nat.beq lo 0x69 || Nat.beq lo 0x6B) &&
    caseRanges.all (CaseRange.misses lo hi (Nat.beq c.stride 2 || Nat.beq c.lo c.hi))

theorem caseRanges_land : caseRanges.all CaseRange.lands = true := by decide +kernel

theorem lowerRune_of_none {r : Nat} (h : 0x80 ≤ r) (hf : caseRanges.find? (·.holds r) = none) :
    lowerRune r = r := by
  rw [lowerRune, if_neg (by omega), hf]

theorem lowerRune_of_some {r : Nat} {c : CaseRange} (h : 0x80 ≤ r)
    (hf : caseRanges.find? (·.holds r) = some c) : lowerRune r = (r + c.delta).toNat := by
  rw [lowerRune, if_neg (by omega), hf]

theorem lowerRune_lowerRune (r : Nat) : lowerRune (lowerRune r) = lowerRune r := by
  by_cases hr : r < 0x80
  · rw [lowerRune_of_lt hr, lowerRune_lowerASCII, lowerRune_of_lt hr]
  · have hge := Nat.le_of_not_lt hr
    cases hf : caseRanges.find? (·.holds r) with
    | none => rw [lowerRune_of_none hge hf, lowerRune_of_none hge hf]
    | some c =>
      rw [lowerRune_of_some hge hf]
      have hmem := List.mem_of_find?_eq_some hf
      have hholds := List.find?_some hf
      have hland := List.all_eq_true.mp caseRanges_land c hmem
      simp only [CaseRange.holds, decide_eq_true_eq] at hholds
      simp only [CaseRange.lands, Bool.and_eq_true, Bool.or_eq_true, Nat.ble_eq, Nat.beq_eq,
        List.all_eq_true] at hland
      obtain ⟨hlow, hmiss⟩ := hland
      have hbeyond := caseRanges_beyond c hmem
      by_cases hm : (r + c.delta).toNat < 0x80
      · have hletter : (r + c.delta).toNat = 0x69 ∨ (r + c.delta).toNat = 0x6B := by omega
        rcases hletter with he | he <;> rw [he] <;> decide
      · refine lowerRune_of_none (Nat.le_of_not_lt hm) ?_
        rw [List.find?_eq_none]
        intro e he hc
        have hme := hmiss e he
        simp only [CaseRange.misses, Bool.or_eq_true, Bool.and_eq_true, Nat.blt_eq, Nat.beq_eq] at hme
        simp only [CaseRange.holds, decide_eq_true_eq] at hc
        obtain ⟨hlo, hhi, hstride⟩ := hholds
        rcases hme with (hme | hme) | ⟨⟨hdouble, htwo⟩, hodd⟩
        · omega
        · omega
        · rw [htwo] at hc
          rcases hdouble with hdouble | hone
          · rw [hdouble] at hstride
            omega
          · omega

namespace GoText

/-! ## Writing a rune and reading it -/

/-- What is read back of a written rune. -/
def scalar (r : Nat) : Nat := if 0xD800 ≤ r ∧ r ≤ 0xDFFF ∨ 0x10FFFF < r then runeError else r

theorem toNat_ofNat {n : Nat} (h : n < 0x100) : (UInt8.ofNat n).toNat = n := by
  rw [UInt8.toNat_ofNat', Nat.mod_eq_of_lt h]

theorem isCont_ofNat {n : Nat} (h : n < 0x40) : isCont (UInt8.ofNat (0x80 + n)) = true := by
  simp only [isCont, toNat_ofNat (show 0x80 + n < 0x100 by omega), decide_eq_true_eq]
  omega

theorem decodeRune_two {b c : UInt8} {x : Nat} (hl : lead b = some (1, x)) (hc : isCont c = true)
    (hs : secondOK b [c] = true) (s : Bytes) :
    decodeRune b (c :: s) = (x * 0x40 + (c.toNat - 0x80), 1) := by
  simp [decodeRune, hl, continues, hc, hs]

theorem decodeRune_three {b c e : UInt8} {x : Nat} (hl : lead b = some (2, x)) (hc : isCont c = true)
    (he : isCont e = true) (hs : secondOK b [c] = true) (s : Bytes) :
    decodeRune b (c :: e :: s) =
      ((x * 0x40 + (c.toNat - 0x80)) * 0x40 + (e.toNat - 0x80), 2) := by
  have hs' : secondOK b [c, e] = true := hs
  simp [decodeRune, hl, continues, hc, he, hs']

theorem decodeRune_four {b c e f : UInt8} {x : Nat} (hl : lead b = some (3, x)) (hc : isCont c = true)
    (he : isCont e = true) (hf : isCont f = true) (hs : secondOK b [c] = true) (s : Bytes) :
    decodeRune b (c :: e :: f :: s) =
      (((x * 0x40 + (c.toNat - 0x80)) * 0x40 + (e.toNat - 0x80)) * 0x40 + (f.toNat - 0x80), 3) := by
  have hs' : secondOK b [c, e, f] = true := hs
  simp [decodeRune, hl, continues, hc, he, hf, hs']

/-- A written rune is read back, whatever follows. -/
theorem decodeRune_encodeRune (r : Nat) (s : Bytes) : ∃ b rest, encodeRune r = b :: rest ∧
    decodeRune b (rest ++ s) = (scalar r, rest.length) := by
  by_cases h1 : r < 0x80
  · refine ⟨UInt8.ofNat r, [], by rw [encodeRune, if_pos h1], ?_⟩
    have hb := toNat_ofNat (show r < 0x100 by omega)
    rw [List.nil_append, decodeRune_of_lt (by omega), hb, scalar, if_neg (by omega)]
    rfl
  · by_cases h2 : r < 0x800
    · refine ⟨_, _, by rw [encodeRune, if_neg h1, if_pos h2], ?_⟩
      have hb := toNat_ofNat (show 0xC0 + r / 0x40 < 0x100 by omega)
      have hc := toNat_ofNat (show 0x80 + r % 0x40 < 0x100 by omega)
      have hl : lead (UInt8.ofNat (0xC0 + r / 0x40)) = some (1, r / 0x40) := by
        rw [lead, hb, if_neg (by omega), if_pos (by omega)]
        simp
      have hs : secondOK (UInt8.ofNat (0xC0 + r / 0x40)) [UInt8.ofNat (0x80 + r % 0x40)] = true := by
        rw [secondOK, hb, if_neg (by omega), if_neg (by omega), if_neg (by omega), if_neg (by omega)]
      rw [List.singleton_append, decodeRune_two hl (isCont_ofNat (by omega)) hs, hc, scalar,
        if_neg (by omega), List.length_singleton, Prod.mk.injEq]
      exact ⟨by omega, rfl⟩
    · by_cases h3 : 0xD800 ≤ r ∧ r ≤ 0xDFFF ∨ 0x10FFFF < r
      · refine ⟨0xEF, [0xBF, 0xBD], by rw [encodeRune, if_neg h1, if_neg h2, if_pos h3], ?_⟩
        rw [scalar, if_pos h3, List.cons_append, List.singleton_append,
          decodeRune_three (x := 0xF) (by decide) (by decide) (by decide) (by decide)]
        decide
      · by_cases h4 : r < 0x10000
        · refine ⟨_, _, by rw [encodeRune, if_neg h1, if_neg h2, if_neg h3, if_pos h4], ?_⟩
          have hb := toNat_ofNat (show 0xE0 + r / 0x1000 < 0x100 by omega)
          have hc := toNat_ofNat (show 0x80 + r / 0x40 % 0x40 < 0x100 by omega)
          have he := toNat_ofNat (show 0x80 + r % 0x40 < 0x100 by omega)
          have hl : lead (UInt8.ofNat (0xE0 + r / 0x1000)) = some (2, r / 0x1000) := by
            rw [lead, hb, if_neg (by omega), if_neg (by omega), if_pos (by omega)]
            simp
          have hs : secondOK (UInt8.ofNat (0xE0 + r / 0x1000))
              [UInt8.ofNat (0x80 + r / 0x40 % 0x40)] = true := by
            simp only [secondOK, hb, hc]
            split
            · simp only [decide_eq_true_eq]
              omega
            · split
              · simp only [decide_eq_true_eq]
                omega
              · rw [if_neg (by omega), if_neg (by omega)]
          rw [List.cons_append, List.singleton_append,
            decodeRune_three hl (isCont_ofNat (by omega)) (isCont_ofNat (by omega)) hs, hc, he, scalar,
            if_neg h3, Prod.mk.injEq]
          exact ⟨by omega, rfl⟩
        · refine ⟨_, _, by rw [encodeRune, if_neg h1, if_neg h2, if_neg h3, if_neg h4], ?_⟩
          have hb := toNat_ofNat (show 0xF0 + r / 0x40000 < 0x100 by omega)
          have hc := toNat_ofNat (show 0x80 + r / 0x1000 % 0x40 < 0x100 by omega)
          have he := toNat_ofNat (show 0x80 + r / 0x40 % 0x40 < 0x100 by omega)
          have hf := toNat_ofNat (show 0x80 + r % 0x40 < 0x100 by omega)
          have hl : lead (UInt8.ofNat (0xF0 + r / 0x40000)) = some (3, r / 0x40000) := by
            rw [lead, hb, if_neg (by omega), if_neg (by omega), if_neg (by omega), if_pos (by omega)]
            simp
          have hs : secondOK (UInt8.ofNat (0xF0 + r / 0x40000))
              [UInt8.ofNat (0x80 + r / 0x1000 % 0x40)] = true := by
            simp only [secondOK, hb, hc]
            rw [if_neg (by omega), if_neg (by omega)]
            split
            · simp only [decide_eq_true_eq]
              omega
            · split
              · simp only [decide_eq_true_eq]
                omega
              · rfl
          rw [List.cons_append, List.cons_append, List.singleton_append,
            decodeRune_four hl (isCont_ofNat (by omega)) (isCont_ofNat (by omega))
              (isCont_ofNat (by omega)) hs, hc, he, hf, scalar, if_neg h3, Prod.mk.injEq]
          exact ⟨by omega, rfl⟩

theorem ofNat_eq {b : UInt8} {n : Nat} (h : b.toNat = n) : UInt8.ofNat n = b := by
  rw [← h, UInt8.ofNat_toNat]

/-- What is read as a rune is the rune as it is written, or a byte that begins none. -/
theorem decodeRune_cases (b : UInt8) (s : Bytes) : decodeRune b s = (runeError, 0) ∨
    b :: s.take (decodeRune b s).2 = encodeRune (decodeRune b s).1 ∧
      scalar (decodeRune b s).1 = (decodeRune b s).1 := by
  cases hl : lead b with
  | none => exact Or.inl (by simp [decodeRune, hl])
  | some p =>
    obtain ⟨n, x⟩ := p
    by_cases hc : continues b n s = true
    · right
      have hd : decodeRune b s = ((s.take n).foldl (fun r c => r * 0x40 + (c.toNat - 0x80)) x, n) := by
        simp only [decodeRune, hl, hc, ↓reduceIte]
      rw [hd]
      simp only [continues, decide_eq_true_eq, List.all_eq_true] at hc
      obtain ⟨hlen, hall, hs⟩ := hc
      have hcont : ∀ c ∈ s.take n, 0x80 ≤ c.toNat ∧ c.toNat ≤ 0xBF := by
        intro c hc
        have hcc := hall c hc
        simpa only [isCont, decide_eq_true_eq] using hcc
      have htake : (s.take n).length = n := List.length_take_of_le hlen
      simp only [lead] at hl
      by_cases h1 : b.toNat < 0x80
      · rw [if_pos h1] at hl
        cases hl
        simp only [List.take_zero, List.foldl_nil]
        rw [encodeRune, if_pos h1, ofNat_eq rfl, scalar, if_neg (by omega)]
        exact ⟨rfl, rfl⟩
      · rw [if_neg h1] at hl
        by_cases h2 : 0xC2 ≤ b.toNat ∧ b.toNat ≤ 0xDF
        · rw [if_pos h2] at hl
          cases hl
          obtain ⟨c, hs'⟩ := List.length_eq_one_iff.mp htake
          rw [hs'] at hcont ⊢
          have hcc := hcont c (by simp)
          simp only [List.foldl_cons, List.foldl_nil]
          rw [encodeRune, if_neg (by omega), if_pos (by omega), scalar, if_neg (by omega),
            ofNat_eq (b := b) (by omega), ofNat_eq (b := c) (by omega)]
          exact ⟨rfl, rfl⟩
        · rw [if_neg h2] at hl
          by_cases h3 : 0xE0 ≤ b.toNat ∧ b.toNat ≤ 0xEF
          · rw [if_pos h3] at hl
            cases hl
            obtain ⟨c, e, hs'⟩ := List.length_eq_two.mp htake
            rw [hs'] at hcont hs ⊢
            have hcc := hcont c (by simp)
            have hce := hcont e (by simp)
            simp only [List.foldl_cons, List.foldl_nil]
            have hlow : b.toNat = 0xE0 → 0xA0 ≤ c.toNat := by
              intro hb
              simpa only [secondOK, hb, ↓reduceIte, decide_eq_true_eq] using hs
            have hsur : b.toNat = 0xED → c.toNat ≤ 0x9F := by
              intro hb
              simpa [secondOK, hb] using hs
            rw [encodeRune, if_neg (by omega), if_neg (by omega), if_neg (by omega), if_pos (by omega),
              scalar, if_neg (by omega), ofNat_eq (b := b) (by omega), ofNat_eq (b := c) (by omega),
              ofNat_eq (b := e) (by omega)]
            exact ⟨rfl, rfl⟩
          · rw [if_neg h3] at hl
            by_cases h4 : 0xF0 ≤ b.toNat ∧ b.toNat ≤ 0xF4
            · rw [if_pos h4] at hl
              cases hl
              obtain ⟨c, e, f, hs'⟩ := List.length_eq_three.mp htake
              rw [hs'] at hcont hs ⊢
              have hcc := hcont c (by simp)
              have hce := hcont e (by simp)
              have hcf := hcont f (by simp)
              simp only [List.foldl_cons, List.foldl_nil]
              have hlow : b.toNat = 0xF0 → 0x90 ≤ c.toNat := by
                intro hb
                simpa [secondOK, hb] using hs
              have hhigh : b.toNat = 0xF4 → c.toNat ≤ 0x8F := by
                intro hb
                simpa [secondOK, hb] using hs
              rw [encodeRune, if_neg (by omega), if_neg (by omega), if_neg (by omega),
                if_neg (by omega), scalar, if_neg (by omega), ofNat_eq (b := b) (by omega),
                ofNat_eq (b := c) (by omega), ofNat_eq (b := e) (by omega),
                ofNat_eq (b := f) (by omega)]
              exact ⟨rfl, rfl⟩
            · rw [if_neg h4] at hl
              cases hl
    · exact Or.inl (by simp [decodeRune, hl, hc])

/-! ## Strings rune by rune -/

theorem decodeFrom_drop (k : Nat) (s : Bytes) (h : k ≤ s.length) : decodeFrom k s = decode (s.drop k) := by
  induction s generalizing k with
  | nil => cases k <;> rfl
  | cons b s ih =>
    cases k with
    | zero => rfl
    | succ k => exact ih k (Nat.le_of_succ_le_succ h)

theorem decode_cons (b : UInt8) (s : Bytes) :
    decode (b :: s) = (decodeRune b s).1 :: decode (s.drop (decodeRune b s).2) := by
  rw [decode, decodeFrom, decodeFrom_drop _ _ (decodeRune_le b s)]

theorem decode_encodeRune (r : Nat) (s : Bytes) : decode (encodeRune r ++ s) = scalar r :: decode s := by
  obtain ⟨b, rest, he, hd⟩ := decodeRune_encodeRune r s
  rw [he, List.cons_append, decode_cons, hd, List.drop_left]

/-- The first rune of a string: written in full, or a byte that begins none. -/
theorem decode_first {s : Bytes} (h : s ≠ []) : ∃ chunk r rest, s = chunk ++ rest ∧ chunk ≠ [] ∧
    decode s = r :: decode rest ∧ (chunk = encodeRune r ∧ scalar r = r ∨ r = runeError) := by
  obtain ⟨b, s, rfl⟩ := List.exists_cons_of_ne_nil h
  refine ⟨b :: s.take (decodeRune b s).2, (decodeRune b s).1, s.drop (decodeRune b s).2, ?_, by simp,
    decode_cons b s, ?_⟩
  · rw [List.cons_append, List.take_append_drop]
  · rcases decodeRune_cases b s with he | he
    · exact Or.inr (by rw [he])
    · exact Or.inl he

/-- Induction along the runes of a string. -/
theorem rune_induction {P : Bytes → Prop} (nil : P [])
    (rune : ∀ chunk r rest, decode (chunk ++ rest) = r :: decode rest →
      (chunk = encodeRune r ∧ scalar r = r ∨ r = runeError) → P rest → P (chunk ++ rest))
    (s : Bytes) : P s := by
  induction hn : s.length using Nat.strongRecOn generalizing s with
  | ind n ih =>
    by_cases hs : s = []
    · rw [hs]
      exact nil
    · obtain ⟨chunk, r, rest, rfl, hne, hd, hc⟩ := decode_first hs
      have hpos := List.length_pos_iff.mpr hne
      refine rune chunk r rest hd hc (ih rest.length ?_ rest rfl)
      rw [← hn, List.length_append]
      omega

theorem encodeRune_scalar (r : Nat) : encodeRune (scalar r) = encodeRune r := by
  by_cases h : 0xD800 ≤ r ∧ r ≤ 0xDFFF ∨ 0x10FFFF < r
  · rw [scalar, if_pos h, encodeRune, encodeRune, if_neg (show ¬r < 0x80 by omega),
      if_neg (show ¬r < 0x800 by omega), if_pos h]
    decide
  · rw [scalar, if_neg h]

/-- Writing a lower-case rune as U+FFFD makes no difference to its lower case. -/
theorem encodeRune_lowerRune_scalar (r : Nat) :
    encodeRune (lowerRune (scalar (lowerRune r))) = encodeRune (lowerRune r) := by
  by_cases h : 0xD800 ≤ lowerRune r ∧ lowerRune r ≤ 0xDFFF ∨ 0x10FFFF < lowerRune r
  · rw [← encodeRune_scalar (lowerRune r), scalar, if_pos h]
    decide +kernel
  · rw [scalar, if_neg h, lowerRune_lowerRune]

theorem toLower_encodeRune (r : Nat) (s : Bytes) :
    toLower (encodeRune r ++ s) = encodeRune (lowerRune (scalar r)) ++ toLower s := by
  rw [toLower, decode_encodeRune, List.flatMap_cons]
  rfl

theorem toLower_rune {chunk rest : Bytes} {r : Nat} (h : decode (chunk ++ rest) = r :: decode rest) :
    toLower (chunk ++ rest) = encodeRune (lowerRune r) ++ toLower rest := by
  rw [toLower, h, List.flatMap_cons]
  rfl

/-- `toLower` has nothing to do on what it gave. -/
theorem toLower_toLower (s : Bytes) : toLower (toLower s) = toLower s := by
  induction s using rune_induction with
  | nil => rfl
  | rune chunk r rest hd _ ih =>
    rw [toLower_rune hd, toLower_encodeRune, encodeRune_lowerRune_scalar, ih]

theorem toLower_append {a : UInt8} (ha : isCont a = false) (x y : Bytes) :
    toLower (x ++ a :: y) = toLower x ++ toLower (a :: y) := by
  rw [toLower, decode_append ha, List.flatMap_append]
  rfl

/-- The last rune of a string, when it is none of the replaced ones, stands at its end. -/
theorem decode_last {s : Bytes} {rs : List Nat} {r : Nat} (h : decode s = rs ++ [r])
    (hr : r ≠ runeError) : encodeRune r <:+ s := by
  induction s using rune_induction generalizing rs with
  | nil =>
    rw [decode_nil] at h
    simp at h
  | rune chunk q rest hd hc ih =>
    rw [hd] at h
    cases rs with
    | nil =>
      obtain ⟨rfl, hrest⟩ := List.cons.inj h
      have hnil : rest = [] := by
        by_contra hne
        exact decode_ne_nil hne hrest
      have hchunk : encodeRune q = chunk ++ rest := by
        rw [hnil, List.append_nil, (hc.resolve_right hr).1]
      exact hchunk ▸ List.suffix_rfl
    | cons q' rs => exact (ih (List.cons.inj h).2).trans (List.suffix_append chunk rest)

/-! ## White space around a string -/

/-- Each is one rune, not a replaced one, of its own lower case. -/
theorem spaces_runes : ∀ w ∈ spaces, ∃ r, w = encodeRune r ∧ scalar r = r ∧ r ≠ runeError ∧
    toLower w = w ∧ r ∈ spaces.flatMap decode := by
  have hall : ∀ w ∈ spaces, ∃ r ∈ decode w, w = encodeRune r ∧ scalar r = r ∧ r ≠ runeError ∧
      toLower w = w ∧ r ∈ spaces.flatMap decode := by decide +kernel
  intro w hw
  obtain ⟨r, -, h⟩ := hall w hw
  exact ⟨r, h⟩

theorem spaces_begin : ∀ w ∈ spaces, ∃ a v, w = a :: v ∧ isCont a = false := by
  have hall : ∀ w ∈ spaces, ∃ a ∈ w.head?, isCont a = false := by decide
  intro w hw
  obtain ⟨a, ha, hc⟩ := hall w hw
  exact ⟨a, w.tail, (List.cons_head?_tail ha).symm, hc⟩

theorem spaces_unmoved : ∀ c ∈ caseRanges, ∀ r ∈ spaces.flatMap decode,
    ¬((c.lo : Int) ≤ r - c.delta ∧ r - c.delta ≤ (c.hi : Int)) := by
  decide +kernel

/-- Only white space has white space for its lower case. -/
theorem lowerRune_space {q r : Nat} (hr : r ∈ spaces.flatMap decode) (h : lowerRune q = r) : q = r := by
  have hsmall : ∀ r ∈ spaces.flatMap decode, r ≤ 0x20 ∨ 0x80 ≤ r := by decide
  have hbound := hsmall r hr
  by_cases hq : q < 0x80
  · rw [lowerRune_of_lt hq, lowerASCII] at h
    split at h <;> omega
  · cases hf : caseRanges.find? (·.holds q) with
    | none => rw [← h, lowerRune_of_none (Nat.le_of_not_lt hq) hf]
    | some c =>
      rw [lowerRune_of_some (Nat.le_of_not_lt hq) hf] at h
      have hmem := List.mem_of_find?_eq_some hf
      have hholds := List.find?_some hf
      simp only [CaseRange.holds, decide_eq_true_eq] at hholds
      have hbeyond := caseRanges_beyond c hmem
      have hnot := spaces_unmoved c hmem r hr
      omega

theorem scalar_lowerRune_space {q r : Nat} (hr : r ∈ spaces.flatMap decode) (hne : r ≠ runeError)
    (h : scalar (lowerRune q) = r) : q = r := by
  rw [scalar] at h
  split at h
  · exact absurd h.symm hne
  · exact lowerRune_space hr h

/-- White space in front of a lower-cased string stood there before. -/
theorem prefix_of_toLower {w s : Bytes} (hw : w ∈ spaces) (h : w <+: toLower s) : w <+: s := by
  obtain ⟨r, hwr, hscalar, hne, -, hspace⟩ := spaces_runes w hw
  obtain ⟨t, ht⟩ := h
  have hs : s ≠ [] := by
    rintro rfl
    rw [toLower_nil, List.append_eq_nil_iff] at ht
    exact spaces_ne_nil w hw ht.1
  obtain ⟨chunk, q, rest, rfl, -, hd, hc⟩ := decode_first hs
  have hfirst : decode (w ++ t) = scalar (lowerRune q) :: decode (toLower rest) := by
    rw [ht, toLower_rune hd, decode_encodeRune]
  rw [hwr, decode_encodeRune, hscalar] at hfirst
  have hq := scalar_lowerRune_space hspace hne (List.cons.inj hfirst).1.symm
  rw [hwr, ← hq, ← (hc.resolve_right (hq ▸ hne)).1]
  exact List.prefix_append _ _

theorem decode_toLower (s : Bytes) : decode (toLower s) = (decode s).map fun r => scalar (lowerRune r) := by
  induction s using rune_induction with
  | nil => rfl
  | rune chunk r rest hd _ ih => rw [toLower_rune hd, decode_encodeRune, ih, hd, List.map_cons]

/-- White space behind a lower-cased string stood there before. -/
theorem suffix_of_toLower {w s : Bytes} (hw : w ∈ spaces) (h : w <:+ toLower s) : w <:+ s := by
  obtain ⟨r, hwr, hscalar, hne, -, hspace⟩ := spaces_runes w hw
  obtain ⟨a, v, hav, ha⟩ := spaces_begin w hw
  obtain ⟨t, ht⟩ := h
  have hone : decode w = [r] := by
    have := decode_encodeRune r []
    rwa [List.append_nil, hscalar, decode_nil, ← hwr] at this
  have hlast : decode (toLower s) = decode t ++ [r] := by
    rw [← ht, hav, decode_append ha, ← hav, hone]
  rw [decode_toLower] at hlast
  obtain ⟨qs, q', hqs, -, hq'⟩ := List.map_eq_append_iff.mp hlast
  obtain ⟨q, rfl, hq⟩ := List.map_eq_singleton_iff.mp hq'
  have heq := scalar_lowerRune_space hspace hne hq
  rw [heq] at hqs
  rw [hwr]
  exact decode_last hqs hne

theorem trimSpace_of_trimLeft (s : Bytes) : trimSpace s <+: trimLeft s := by
  have hsuffix := dropWords_suffix (spaces.map List.reverse) (trimLeft s).length (trimLeft s).reverse
  rw [← List.reverse_suffix]
  simpa only [trimSpace, trimRight, List.reverse_reverse] using hsuffix

/-- Trimming takes bytes away at the two ends only. -/
theorem trimSpace_within (s : Bytes) : trimSpace s <:+: s :=
  (trimSpace_of_trimLeft s).isInfix.trans (dropWords_suffix spaces s.length s).isInfix

/-- A trimmed string begins with no white space. -/
theorem trimSpace_begun (s : Bytes) : ∀ w ∈ spaces, ¬w <+: trimSpace s := by
  intro w hw hp
  exact dropWords_done spaces_ne_nil (Nat.le_refl s.length) w hw (hp.trans (trimSpace_of_trimLeft s))

@[simp] theorem trimSpace_trimSpace (s : Bytes) : trimSpace (trimSpace s) = trimSpace s :=
  trimSpace_id (trimSpace_begun s) (trimSpace_done s)

/-- Lower case leaves a trimmed string trimmed. -/
theorem trimSpace_toLower (s : Bytes) : trimSpace (toLower (trimSpace s)) = toLower (trimSpace s) :=
  trimSpace_id (fun w hw hp => trimSpace_begun s w hw (prefix_of_toLower hw hp))
    (fun w hw hs => trimSpace_done s w hw (suffix_of_toLower hw hs))

theorem dropWords_words (words : List Bytes) (n : Nat) (s : Bytes) :
    ∃ ws : List Bytes, (∀ w ∈ ws, w ∈ words) ∧ s = ws.flatten ++ dropWords words n s := by
  induction n generalizing s with
  | zero => exact ⟨[], by simp, rfl⟩
  | succ n ih =>
    rw [dropWords]
    split
    · rename_i w hf
      obtain ⟨ws, hws, hs⟩ := ih (s.drop w.length)
      have hpre := List.find?_some hf
      obtain ⟨t, ht⟩ := List.isPrefixOf_iff_prefix.mp hpre
      refine ⟨w :: ws, ?_, ?_⟩
      · intro v hv
        rcases List.mem_cons.mp hv with rfl | hv
        · exact List.mem_of_find?_eq_some hf
        · exact hws v hv
      · rw [List.flatten_cons, List.append_assoc, ← hs, ← ht, List.drop_left]
    · exact ⟨[], by simp, rfl⟩

/-- Without white space in front, trimming takes white space off the end. -/
theorem trimSpace_right {s : Bytes} (h : ∀ w ∈ spaces, ¬w <+: s) :
    ∃ ws : List Bytes, (∀ w ∈ ws, w ∈ spaces) ∧ s = trimSpace s ++ ws.flatten := by
  obtain ⟨ws, hws, hs⟩ := dropWords_words (spaces.map List.reverse) s.length s.reverse
  refine ⟨(ws.map List.reverse).reverse, ?_, ?_⟩
  · intro w hw
    obtain ⟨v, hv, rfl⟩ := List.mem_map.mp (List.mem_reverse.mp hw)
    obtain ⟨u, hu, rfl⟩ := List.mem_map.mp (hws v hv)
    rwa [List.reverse_reverse]
  · have htrim : trimSpace s = (dropWords (spaces.map List.reverse) s.length s.reverse).reverse := by
      rw [trimSpace, trimLeft, dropWords_id h, trimRight]
    rw [htrim, ← List.reverse_flatten, ← List.reverse_append, ← hs, List.reverse_reverse]

/-- What is left of a lower-case string without the white space behind it is lower case. -/
theorem lower_of_blank {s : Bytes} {ws : List Bytes} (hws : ∀ w ∈ ws, w ∈ spaces)
    (h : toLower (s ++ ws.flatten) = s ++ ws.flatten) : toLower s = s := by
  induction ws generalizing s with
  | nil => simpa using h
  | cons w ws ih =>
    obtain ⟨a, v, hav, ha⟩ := spaces_begin w (hws w List.mem_cons_self)
    obtain ⟨-, -, -, -, hlow, -⟩ := spaces_runes w (hws w List.mem_cons_self)
    rw [List.flatten_cons, ← List.append_assoc] at h
    have hsw := ih (fun v hv => hws v (List.mem_cons_of_mem w hv)) h
    rw [hav, toLower_append ha, ← hav, hlow] at hsw
    exact List.append_cancel_right hsw

end GoText

end SplitProxy
