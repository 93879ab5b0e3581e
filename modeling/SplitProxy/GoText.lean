import SplitProxy.CaseRanges

/-!
# Strings

The `strings`, `unicode/utf8` and `net` functions the proxy reads names with. A
string is its bytes; runes are decoded as Go decodes them, with U+FFFD for each
byte that begins no rune.
-/
namespace SplitProxy

/-- A Go string. -/
abbrev Bytes := List UInt8

instance : LawfulBEq Bytes := inferInstance

namespace GoText

/-! ## Runes -/

def runeError : Nat := 0xFFFD

/-- How many bytes continue a rune with this first byte, and the first byte's bits. -/
def lead (b : UInt8) : Option (Nat × Nat) :=
  if b.toNat < 0x80 then some (0, b.toNat)
  else if 0xC2 ≤ b.toNat ∧ b.toNat ≤ 0xDF then some (1, b.toNat - 0xC0)
  else if 0xE0 ≤ b.toNat ∧ b.toNat ≤ 0xEF then some (2, b.toNat - 0xE0)
  else if 0xF0 ≤ b.toNat ∧ b.toNat ≤ 0xF4 then some (3, b.toNat - 0xF0)
  else none

def isCont (b : UInt8) : Bool := 0x80 ≤ b.toNat ∧ b.toNat ≤ 0xBF

/-- Overlong runes, surrogates and runes past U+10FFFF are refused at the second byte. -/
def secondOK (b : UInt8) : Bytes → Bool
  | [] => true
  | c :: _ =>
    if b.toNat = 0xE0 then 0xA0 ≤ c.toNat
    else if b.toNat = 0xED then c.toNat ≤ 0x9F
    else if b.toNat = 0xF0 then 0x90 ≤ c.toNat
    else if b.toNat = 0xF4 then c.toNat ≤ 0x8F
    else true

/-- The next `n` bytes are there and complete a rune that `b` begins. -/
def continues (b : UInt8) (n : Nat) (s : Bytes) : Bool :=
  n ≤ s.length ∧ (s.take n).all isCont ∧ secondOK b (s.take n)

/-- The rune that a byte begins, and how many of the bytes after it belong to it. -/
def decodeRune (b : UInt8) (s : Bytes) : Nat × Nat :=
  match lead b with
  | none => (runeError, 0)
  | some (n, r) =>
    if continues b n s then ((s.take n).foldl (fun r c => r * 0x40 + (c.toNat - 0x80)) r, n)
    else (runeError, 0)

/-- The runes of a string whose first `k` bytes are already spent. -/
def decodeFrom : Nat → Bytes → List Nat
  | _, [] => []
  | k + 1, _ :: s => decodeFrom k s
  | 0, b :: s => (decodeRune b s).1 :: decodeFrom (decodeRune b s).2 s

def decode (s : Bytes) : List Nat := decodeFrom 0 s

/-- Surrogates and runes past U+10FFFF are written as U+FFFD. -/
def encodeRune (r : Nat) : Bytes :=
  if r < 0x80 then [UInt8.ofNat r]
  else if r < 0x800 then [UInt8.ofNat (0xC0 + r / 0x40), UInt8.ofNat (0x80 + r % 0x40)]
  else if 0xD800 ≤ r ∧ r ≤ 0xDFFF ∨ 0x10FFFF < r then [0xEF, 0xBF, 0xBD]
  else if r < 0x10000 then
    [UInt8.ofNat (0xE0 + r / 0x1000), UInt8.ofNat (0x80 + r / 0x40 % 0x40),
      UInt8.ofNat (0x80 + r % 0x40)]
  else
    [UInt8.ofNat (0xF0 + r / 0x40000), UInt8.ofNat (0x80 + r / 0x1000 % 0x40),
      UInt8.ofNat (0x80 + r / 0x40 % 0x40), UInt8.ofNat (0x80 + r % 0x40)]

/-- `strings.ToLower`. -/
def toLower (s : Bytes) : Bytes := (decode s).flatMap (fun r => encodeRune (lowerRune r))

/-- The lower case of one ASCII byte; other bytes stay. -/
def lowerByte (b : UInt8) : UInt8 := UInt8.ofNat (lowerASCII b.toNat)

theorem toNat_lowerByte (b : UInt8) : (lowerByte b).toNat = lowerASCII b.toNat := by
  have hb := b.toNat_lt
  rw [lowerByte, UInt8.toNat_ofNat', Nat.mod_eq_of_lt]
  simp only [lowerASCII]
  split <;> omega

theorem lowerByte_of_ge {b : UInt8} (h : 0x80 ≤ b.toNat) : lowerByte b = b := by
  rw [lowerByte, lowerASCII_of_ge h, UInt8.ofNat_toNat]

/-- Only letters change. -/
theorem lowerByte_eq_iff {b c : UInt8} (hb : b.toNat ≤ 0x40 ∨ 0x5B ≤ b.toNat ∧ b.toNat ≤ 0x60) :
    lowerByte c = b ↔ c = b := by
  have hn := toNat_lowerByte c
  constructor
  · rintro rfl
    apply UInt8.toNat_inj.mp
    simp only [lowerASCII] at hn
    split at hn <;> omega
  · rintro rfl
    apply UInt8.toNat_inj.mp
    rw [hn, lowerASCII, if_neg (by omega)]

theorem lead_of_lt {b : UInt8} (h : b.toNat < 0x80) : lead b = some (0, b.toNat) := if_pos h

theorem decodeRune_of_lt {b : UInt8} (h : b.toNat < 0x80) (s : Bytes) :
    decodeRune b s = (b.toNat, 0) := by
  simp [decodeRune, lead_of_lt h, continues, secondOK]

/-- A rune that begins beyond ASCII is not an ASCII one. -/
theorem decodeRune_ge {b : UInt8} (h : 0x80 ≤ b.toNat) (s : Bytes) :
    0x80 ≤ (decodeRune b s).1 := by
  have herr : 0x80 ≤ runeError := by decide
  cases hl : lead b with
  | none => simpa [decodeRune, hl] using herr
  | some p =>
    obtain ⟨n, r⟩ := p
    by_cases hc : continues b n s = true
    · have hv : (decodeRune b s).1 =
          (s.take n).foldl (fun r c => r * 0x40 + (c.toNat - 0x80)) r := by
        simp [decodeRune, hl, hc]
      rw [hv]
      simp only [continues, decide_eq_true_eq] at hc
      obtain ⟨hlen, -, hs⟩ := hc
      simp only [lead, if_neg (Nat.not_lt.mpr h)] at hl
      by_cases h1 : 0xC2 ≤ b.toNat ∧ b.toNat ≤ 0xDF
      · rw [if_pos h1] at hl
        cases hl
        obtain ⟨c, hs'⟩ := List.length_eq_one_iff.mp (List.length_take_of_le hlen)
        rw [hs', List.foldl_cons, List.foldl_nil]
        omega
      · by_cases h2 : 0xE0 ≤ b.toNat ∧ b.toNat ≤ 0xEF
        · rw [if_neg h1, if_pos h2] at hl
          cases hl
          obtain ⟨c, d, hs'⟩ := List.length_eq_two.mp (List.length_take_of_le hlen)
          rw [hs'] at hs ⊢
          simp only [secondOK] at hs
          simp only [List.foldl_cons, List.foldl_nil]
          by_cases he : b.toNat = 0xE0
          · rw [if_pos he, decide_eq_true_eq] at hs
            omega
          · omega
        · by_cases h3 : 0xF0 ≤ b.toNat ∧ b.toNat ≤ 0xF4
          · rw [if_neg h1, if_neg h2, if_pos h3] at hl
            cases hl
            obtain ⟨c, d, e, hs'⟩ := List.length_eq_three.mp (List.length_take_of_le hlen)
            rw [hs'] at hs ⊢
            simp only [secondOK] at hs
            simp only [List.foldl_cons, List.foldl_nil]
            by_cases he : b.toNat = 0xF0
            · rw [if_neg (by omega), if_neg (by omega), if_pos he, decide_eq_true_eq] at hs
              omega
            · omega
          · rw [if_neg h1, if_neg h2, if_neg h3] at hl
            cases hl
    · simpa [decodeRune, hl, hc] using herr

/-- A rune never reaches past the string. -/
theorem decodeRune_le (b : UInt8) (s : Bytes) : (decodeRune b s).2 ≤ s.length := by
  cases hl : lead b with
  | none => simp [decodeRune, hl]
  | some p =>
    by_cases hc : continues b p.1 s = true
    · simp only [decodeRune, hl, hc, ↓reduceIte]
      simp only [continues, decide_eq_true_eq] at hc
      exact hc.1
    · simp [decodeRune, hl, hc]

/-- What follows a byte that continues no rune does not matter to the rune before it. -/
theorem decodeRune_append {a : UInt8} (ha : isCont a = false) (b : UInt8) (x y : Bytes) :
    decodeRune b (x ++ a :: y) = decodeRune b x := by
  cases hl : lead b with
  | none => simp [decodeRune, hl]
  | some p =>
    obtain ⟨n, r⟩ := p
    by_cases hn : n ≤ x.length
    · have ht : (x ++ a :: y).take n = x.take n := List.take_append_of_le_length hn
      have hc : continues b n (x ++ a :: y) = continues b n x := by
        simp only [continues, ht, List.length_append, decide_eq_decide, hn, true_and]
        rw [and_iff_right (by omega)]
      simp only [decodeRune, hl, hc, ht]
    · have hx : continues b n x = false := by simp [continues, hn]
      have hxa : continues b n (x ++ a :: y) = false := by
        obtain ⟨m, hm⟩ := Nat.exists_eq_succ_of_ne_zero (show n - x.length ≠ 0 by omega)
        simp [continues, List.take_append, hm, ha]
      simp [decodeRune, hl, hx, hxa]

@[simp] theorem decode_nil : decode [] = [] := rfl

theorem decodeFrom_append {a : UInt8} (ha : isCont a = false) (x y : Bytes) (k : Nat)
    (hk : k ≤ x.length) : decodeFrom k (x ++ a :: y) = decodeFrom k x ++ decode (a :: y) := by
  induction x generalizing k with
  | nil =>
    rw [Nat.le_zero.mp hk]
    rfl
  | cons b x ih =>
    rw [List.cons_append]
    cases k with
    | zero =>
      rw [decodeFrom, decodeFrom, decodeRune_append ha, ih _ (decodeRune_le b x),
        List.cons_append]
    | succ k =>
      rw [decodeFrom, decodeFrom]
      exact ih k (Nat.le_of_succ_le_succ hk)

/-- A byte that continues no rune begins one, whatever stands before it. -/
theorem decode_append {a : UInt8} (ha : isCont a = false) (x y : Bytes) :
    decode (x ++ a :: y) = decode x ++ decode (a :: y) :=
  decodeFrom_append ha x y 0 (Nat.zero_le _)

/-- An ASCII byte is a rune of its own, whatever stands around it. -/
theorem decode_append_cons {a : UInt8} (ha : a.toNat < 0x80) (x y : Bytes) :
    decode (x ++ a :: y) = decode x ++ a.toNat :: decode y := by
  have hcont : isCont a = false := by
    simp only [isCont, decide_eq_false_iff_not]
    omega
  rw [decode_append hcont]
  simp [decode, decodeFrom, decodeRune_of_lt ha]

@[simp] theorem toLower_nil : toLower [] = [] := rfl

/-- `toLower` works on the two sides of an ASCII byte apart. -/
theorem toLower_append_cons {a : UInt8} (ha : a.toNat < 0x80) (x y : Bytes) :
    toLower (x ++ a :: y) = toLower x ++ lowerByte a :: toLower y := by
  have he : encodeRune (lowerRune a.toNat) = [lowerByte a] := by
    rw [lowerRune_of_lt ha, encodeRune, if_pos (lowerASCII_lt ha), lowerByte]
  simp [toLower, decode_append_cons ha, he]

theorem toLower_cons {a : UInt8} (ha : a.toNat < 0x80) (y : Bytes) :
    toLower (a :: y) = lowerByte a :: toLower y := by
  simpa using toLower_append_cons ha [] y

theorem toLower_ascii {s : Bytes} (h : ∀ b ∈ s, b.toNat < 0x80) :
    toLower s = s.map lowerByte := by
  induction s with
  | nil => rfl
  | cons b s ih =>
    rw [toLower_cons (h b List.mem_cons_self), List.map_cons,
      ih (fun c hc => h c (List.mem_cons_of_mem b hc))]

/-! ### The case of ASCII letters does not matter to `toLower` -/

theorem toNat_ofNat_ge {n : Nat} (h : 0x80 ≤ n) (hn : n < 0x100) :
    0x80 ≤ (UInt8.ofNat n).toNat := by
  rw [UInt8.toNat_ofNat', Nat.mod_eq_of_lt hn]
  exact h

/-- A rune beyond ASCII is written without ASCII bytes. -/
theorem encodeRune_ge {r : Nat} (h : 0x80 ≤ r) : ∀ b ∈ encodeRune r, 0x80 ≤ b.toNat := by
  intro b hb
  rw [encodeRune, if_neg (by omega)] at hb
  by_cases h1 : r < 0x800
  · rw [if_pos h1] at hb
    simp only [List.mem_cons, List.not_mem_nil, or_false] at hb
    rcases hb with rfl | rfl <;> exact toNat_ofNat_ge (by omega) (by omega)
  · by_cases h2 : 0xD800 ≤ r ∧ r ≤ 0xDFFF ∨ 0x10FFFF < r
    · rw [if_neg h1, if_pos h2] at hb
      simp only [List.mem_cons, List.not_mem_nil, or_false] at hb
      rcases hb with rfl | rfl | rfl <;> decide
    · rw [if_neg h1, if_neg h2] at hb
      by_cases h3 : r < 0x10000
      · rw [if_pos h3] at hb
        simp only [List.mem_cons, List.not_mem_nil, or_false] at hb
        rcases hb with rfl | rfl | rfl <;> exact toNat_ofNat_ge (by omega) (by omega)
      · rw [if_neg h3] at hb
        simp only [List.mem_cons, List.not_mem_nil, or_false] at hb
        rcases hb with rfl | rfl | rfl | rfl <;> exact toNat_ofNat_ge (by omega) (by omega)

/-- An ASCII byte of a written lower-case rune: the rune's own, or an `i` or `k`. -/
theorem encodeRune_ascii {r : Nat} {b : UInt8} (hb : b ∈ encodeRune (lowerRune r))
    (hlt : b.toNat < 0x80) : b.toNat = lowerASCII r ∧ r < 0x80 ∨ b = 0x69 ∨ b = 0x6B := by
  by_cases h : r < 0x80
  · rw [lowerRune_of_lt h, encodeRune, if_pos (lowerASCII_lt h), List.mem_singleton] at hb
    left
    have := lowerASCII_lt h
    rw [hb, UInt8.toNat_ofNat', Nat.mod_eq_of_lt (by omega)]
    exact ⟨rfl, h⟩
  · right
    rcases lowerRune_beyond (Nat.le_of_not_lt h) with h | h | h
    · have := encodeRune_ge h b hb
      omega
    · rw [h] at hb
      exact Or.inl (List.mem_singleton.mp hb)
    · rw [h] at hb
      exact Or.inr (List.mem_singleton.mp hb)

theorem mem_decodeFrom {s : Bytes} {k r : Nat} (h : r ∈ decodeFrom k s) (hr : r < 0x80) :
    ∃ b ∈ s, b.toNat = r := by
  induction s generalizing k with
  | nil => cases k <;> cases h
  | cons b s ih =>
    cases k with
    | succ k =>
      obtain ⟨c, hc, hcr⟩ := ih h
      exact ⟨c, List.mem_cons_of_mem b hc, hcr⟩
    | zero =>
      rw [decodeFrom] at h
      rcases List.mem_cons.mp h with hb | hs
      · by_cases hlt : b.toNat < 0x80
        · rw [decodeRune_of_lt hlt] at hb
          exact ⟨b, List.mem_cons_self, hb.symm⟩
        · have := decodeRune_ge (Nat.le_of_not_lt hlt) s
          omega
      · obtain ⟨c, hc, hcr⟩ := ih hs
        exact ⟨c, List.mem_cons_of_mem b hc, hcr⟩

/-- A byte that is neither a letter nor beyond ASCII was there before `toLower`. -/
theorem mem_of_mem_toLower {s : Bytes} {b : UInt8} (h : b ∈ toLower s) (hlt : b.toNat < 0x61) :
    b ∈ s := by
  obtain ⟨r, hr, hb⟩ := List.mem_flatMap.mp h
  rcases encodeRune_ascii hb (by omega) with ⟨he, hr'⟩ | rfl | rfl
  · obtain ⟨c, hc, rfl⟩ := mem_decodeFrom hr hr'
    have hcb : c.toNat = b.toNat := by
      simp only [lowerASCII] at he
      split at he <;> omega
    rw [← UInt8.toNat_inj.mp hcb]
    exact hc
  · exact absurd hlt (by decide)
  · exact absurd hlt (by decide)

theorem encodeRune_ne_nil (r : Nat) : encodeRune r ≠ [] := by
  unfold encodeRune
  (repeat' split) <;> simp

theorem decode_ne_nil {s : Bytes} (h : s ≠ []) : decode s ≠ [] := by
  cases s with
  | nil => exact absurd rfl h
  | cons b s => simp [decode, decodeFrom]

theorem toLower_ne_nil {s : Bytes} (h : s ≠ []) : toLower s ≠ [] := by
  cases hd : decode s with
  | nil => exact absurd hd (decode_ne_nil h)
  | cons r l => simp [toLower, hd, encodeRune_ne_nil]

/-- A lower-cased string begins with a byte that is no letter only if the string does. -/
theorem toLower_eq_cons {s t : Bytes} {a : UInt8} (ha : a.toNat < 0x61) (h : toLower s = a :: t) :
    ∃ s', s = a :: s' := by
  have hmem : a ∈ s := mem_of_mem_toLower (by rw [h]; exact List.mem_cons_self) ha
  obtain ⟨x, y, rfl, hx⟩ := List.eq_append_cons_of_mem hmem
  have hnil : toLower x = [] := by
    rw [toLower_append_cons (by omega)] at h
    cases hl : toLower x with
    | nil => rfl
    | cons b u =>
      rw [hl] at h
      cases h
      exact absurd (mem_of_mem_toLower (by rw [hl]; exact List.mem_cons_self) ha) hx
  by_cases hxn : x = []
  · exact ⟨y, by rw [hxn]; rfl⟩
  · exact absurd hnil (toLower_ne_nil hxn)

/-- When the last byte is not ASCII, neither is the last rune. -/
theorem getLast_decodeFrom {x : Bytes} {b : UInt8} (hb : 0x80 ≤ b.toNat) {k r : Nat}
    (h : (decodeFrom k (x ++ [b])).getLast? = some r) : 0x80 ≤ r := by
  induction x generalizing k with
  | nil =>
    cases k with
    | succ k =>
      cases k <;> cases h
    | zero =>
      have hd : decodeFrom 0 ([] ++ [b]) = [(decodeRune b []).1] := by
        rw [List.nil_append, decodeFrom, decodeFrom]
      rw [hd] at h
      cases h
      exact decodeRune_ge hb []
  | cons c x ih =>
    cases k with
    | succ k => exact ih h
    | zero =>
      rw [List.cons_append, decodeFrom] at h
      cases hd : decodeFrom (decodeRune c (x ++ [b])).2 (x ++ [b]) with
      | cons q l =>
        rw [hd, List.getLast?_cons_cons, ← hd] at h
        exact ih h
      | nil =>
        rw [hd] at h
        cases h
        by_cases hc : c.toNat < 0x80
        · rw [decodeRune_of_lt hc] at hd
          cases x <;> cases hd
        · exact decodeRune_ge (Nat.le_of_not_lt hc) _

/-- A lower-cased string ends in a byte that is no letter only if the string does. -/
theorem getLast_toLower {s : Bytes} {b : UInt8} (hlt : b.toNat < 0x61)
    (h : (toLower s).getLast? = some b) : s.getLast? = some b := by
  rcases List.eq_nil_or_concat s with rfl | ⟨x, c, rfl⟩
  · cases h
  · rw [List.concat_eq_append] at h ⊢
    by_cases hc : c.toNat < 0x80
    · rw [toLower_append_cons hc, toLower_nil] at h
      simp only [List.getLast?_append, List.getLast?_singleton, Option.some_or,
        Option.some.injEq] at h ⊢
      have hl := toNat_lowerByte c
      rw [h] at hl
      apply UInt8.toNat_inj.mp
      simp only [lowerASCII] at hl
      split at hl <;> omega
    · exfalso
      rcases List.eq_nil_or_concat (decode (x ++ [c])) with hd | ⟨l, r, hd⟩
      · exact decode_ne_nil (by simp) hd
      · rw [List.concat_eq_append] at hd
        have hr : 0x80 ≤ r := getLast_decodeFrom (Nat.le_of_not_lt hc) (by
          rw [← decode, hd, List.getLast?_concat])
        rw [toLower, hd, List.flatMap_append, List.flatMap_singleton,
          List.getLast?_append_of_ne_nil _ (encodeRune_ne_nil _)] at h
        rcases encodeRune_ascii (List.mem_of_getLast? h) (by omega) with ⟨-, h⟩ | rfl | rfl
        · omega
        · exact absurd hlt (by decide)
        · exact absurd hlt (by decide)

/-! ## White space -/

/-- The encodings of the runes `unicode.IsSpace` names. -/
def spaces : List Bytes :=
  [[0x09], [0x0A], [0x0B], [0x0C], [0x0D], [0x20], [0xC2, 0x85], [0xC2, 0xA0], [0xE1, 0x9A, 0x80],
   [0xE2, 0x80, 0x80], [0xE2, 0x80, 0x81], [0xE2, 0x80, 0x82], [0xE2, 0x80, 0x83],
   [0xE2, 0x80, 0x84], [0xE2, 0x80, 0x85], [0xE2, 0x80, 0x86], [0xE2, 0x80, 0x87],
   [0xE2, 0x80, 0x88], [0xE2, 0x80, 0x89], [0xE2, 0x80, 0x8A], [0xE2, 0x80, 0xA8],
   [0xE2, 0x80, 0xA9], [0xE2, 0x80, 0xAF], [0xE2, 0x81, 0x9F], [0xE3, 0x80, 0x80]]

/-- Drop words of a set from the front while there are any, at most `n` times. -/
def dropWords (words : List Bytes) : Nat → Bytes → Bytes
  | 0, s => s
  | n + 1, s =>
    match words.find? (·.isPrefixOf s) with
    | some w => dropWords words n (s.drop w.length)
    | none => s

def trimLeft (s : Bytes) : Bytes := dropWords spaces s.length s

def trimRight (s : Bytes) : Bytes :=
  (dropWords (spaces.map List.reverse) s.length s.reverse).reverse

/-- `strings.TrimSpace`. -/
def trimSpace (s : Bytes) : Bytes := trimRight (trimLeft s)

/-- No white space stands anywhere in the string. -/
def NoBlank (s : Bytes) : Prop := ∀ w ∈ spaces, ¬w <:+: s

/-- Any run of white space. -/
def Blank (s : Bytes) : Prop := ∃ ws : List Bytes, (∀ w ∈ ws, w ∈ spaces) ∧ s = ws.flatten

/-- Words none of which begins another are dropped one by one. -/
theorem dropWords_spec {words : List Bytes}
    (hcode : ∀ v ∈ words, ∀ w ∈ words, v <+: w → v = w) (hne : ∀ w ∈ words, w ≠ [])
    {s : Bytes} (hs : ∀ w ∈ words, ¬w <+: s) (ws : List Bytes) (hws : ∀ w ∈ ws, w ∈ words)
    (n : Nat) (hn : (ws.flatten ++ s).length ≤ n) :
    dropWords words n (ws.flatten ++ s) = s := by
  have hfind : ∀ (l : Bytes), (∀ w ∈ words, ¬w <+: l) →
      words.find? (·.isPrefixOf l) = none := by
    intro l hl
    rw [List.find?_eq_none]
    intro w hw hp
    exact hl w hw (List.isPrefixOf_iff_prefix.mp hp)
  induction ws generalizing n with
  | nil =>
    cases n with
    | zero => rfl
    | succ n => rw [List.flatten_nil, List.nil_append, dropWords, hfind s hs]
  | cons w ws ih =>
    have hw := hws w List.mem_cons_self
    rw [List.flatten_cons, List.append_assoc] at hn ⊢
    have hpos := List.length_pos_iff.mpr (hne w hw)
    rw [List.length_append] at hn
    obtain ⟨m, rfl⟩ := Nat.exists_eq_succ_of_ne_zero (show n ≠ 0 by omega)
    have hf : words.find? (·.isPrefixOf (w ++ (ws.flatten ++ s))) = some w := by
      cases hf : words.find? (·.isPrefixOf (w ++ (ws.flatten ++ s))) with
      | none =>
        have := List.find?_eq_none.mp hf w hw
        simp at this
      | some v =>
        have hv := List.mem_of_find?_eq_some hf
        have hpre := List.find?_some hf
        have hp := List.isPrefixOf_iff_prefix.mp hpre
        rcases List.prefix_or_prefix_of_prefix hp (List.prefix_append w _) with h | h
        · rw [hcode v hv w hw h]
        · rw [hcode w hw v hv h]
    rw [dropWords, hf]
    simp only [List.drop_left']
    exact ih (fun v hv => hws v (List.mem_cons_of_mem w hv)) m (by omega)

/-- After as many turns as there are bytes, no word is left in front. -/
theorem dropWords_done {words : List Bytes} (hne : ∀ w ∈ words, w ≠ []) {n : Nat} {s : Bytes}
    (hn : s.length ≤ n) : ∀ w ∈ words, ¬w <+: dropWords words n s := by
  induction n generalizing s with
  | zero =>
    intro w hw hp
    have hs : s = [] := List.length_eq_zero_iff.mp (Nat.le_zero.mp hn)
    subst hs
    exact hne w hw (List.prefix_nil.mp hp)
  | succ n ih =>
    rw [dropWords]
    cases hf : words.find? (·.isPrefixOf s) with
    | none =>
      intro w hw hp
      exact List.find?_eq_none.mp hf w hw (List.isPrefixOf_iff_prefix.mpr hp)
    | some v =>
      have hpos := List.length_pos_iff.mpr (hne v (List.mem_of_find?_eq_some hf))
      apply ih
      rw [List.length_drop]
      omega

theorem dropWords_suffix (words : List Bytes) (n : Nat) (s : Bytes) : dropWords words n s <:+ s := by
  induction n generalizing s with
  | zero => exact List.suffix_rfl
  | succ n ih =>
    rw [dropWords]
    split
    · exact (ih _).trans (List.drop_suffix _ _)
    · exact List.suffix_rfl

theorem dropWords_id {words : List Bytes} {s : Bytes} (h : ∀ w ∈ words, ¬w <+: s) (n : Nat) :
    dropWords words n s = s := by
  cases n with
  | zero => rfl
  | succ n =>
    have hf : words.find? (·.isPrefixOf s) = none :=
      List.find?_eq_none.mpr fun w hw hp => h w hw (List.isPrefixOf_iff_prefix.mp hp)
    rw [dropWords, hf]

/-- The encodings begin and end no other one, and only single bytes of them are ASCII. -/
theorem spaces_code : (∀ v ∈ spaces, ∀ w ∈ spaces, v <+: w → v = w) ∧
    (∀ v ∈ spaces, ∀ w ∈ spaces, v <:+ w → v = w) ∧
    ∀ w ∈ spaces, ∀ b ∈ w, b.toNat < 0x80 → w = [b] ∧ lowerByte b = b ∧ b.toNat ≤ 0x20 := by
  decide +kernel

theorem spaces_ne_nil : ∀ w ∈ spaces, w ≠ [] := by decide

/-- A trimmed string begins and ends in no white space. -/
theorem trimSpace_done (s : Bytes) : ∀ w ∈ spaces, ¬w <:+ trimSpace s := by
  intro w hw hs
  have hne : ∀ w ∈ spaces.map List.reverse, w ≠ [] := by decide
  have hdone := dropWords_done hne
    (show (trimLeft s).reverse.length ≤ (trimLeft s).length from Nat.le_of_eq List.length_reverse)
  refine hdone w.reverse (List.mem_map_of_mem hw) ?_
  simpa only [trimSpace, trimRight, List.reverse_reverse] using List.reverse_prefix.mpr hs

theorem trimSpace_id {s : Bytes} (hp : ∀ w ∈ spaces, ¬w <+: s) (hs : ∀ w ∈ spaces, ¬w <:+ s) :
    trimSpace s = s := by
  have hr : ∀ w ∈ spaces.map List.reverse, ¬w <+: s.reverse := by
    intro w hw hpre
    obtain ⟨v, hv, rfl⟩ := List.mem_map.mp hw
    exact hs v hv (List.reverse_prefix.mp hpre)
  rw [trimSpace, trimLeft, dropWords_id hp, trimRight, dropWords_id hr, List.reverse_reverse]

theorem not_space_of_gt {b : UInt8} (hb : 0x20 < b.toNat) (hlt : b.toNat < 0x80) :
    [b] ∉ spaces := by
  intro hs
  have := (spaces_code.2.2 [b] hs b List.mem_cons_self hlt).2.2
  omega

theorem not_prefix_cons {b : UInt8} (hb : b.toNat < 0x80) (hs : [b] ∉ spaces) (x : Bytes) :
    ∀ w ∈ spaces, ¬w <+: b :: x := by
  intro w hw hp
  cases w with
  | nil => exact spaces_ne_nil [] hw rfl
  | cons c w =>
    have hc := (List.cons_prefix_cons.mp hp).1
    subst hc
    have := (spaces_code.2.2 _ hw c List.mem_cons_self hb).1
    rw [this] at hw
    exact hs hw

theorem not_suffix_concat {b : UInt8} (hb : b.toNat < 0x80) (hs : [b] ∉ spaces) (x : Bytes) :
    ∀ w ∈ spaces, ¬w <:+ x ++ [b] := by
  intro w hw hp
  rcases List.eq_nil_or_concat w with rfl | ⟨v, c, rfl⟩
  · exact spaces_ne_nil [] hw rfl
  · rw [List.concat_eq_append] at hw hp
    obtain ⟨y, hy⟩ := hp
    rw [← List.append_assoc] at hy
    have hc := (List.append_inj' hy rfl).2
    cases hc
    have := (spaces_code.2.2 _ hw b (by simp) hb).1
    rw [this] at hw
    exact hs hw

/-- `TrimSpace` takes away exactly the white space around a name. -/
theorem trimSpace_spec {x y core : Bytes} {b : UInt8} (hx : Blank x) (hy : Blank y)
    (hb : b.toNat < 0x80) (hs : [b] ∉ spaces) (hlast : ∀ w ∈ spaces, ¬w <:+ b :: core) :
    trimSpace (x ++ (b :: core) ++ y) = b :: core := by
  obtain ⟨xs, hxs, rfl⟩ := hx
  obtain ⟨ys, hys, rfl⟩ := hy
  have hl : trimLeft (xs.flatten ++ (b :: core) ++ ys.flatten) = (b :: core) ++ ys.flatten := by
    rw [trimLeft, List.append_assoc]
    exact dropWords_spec spaces_code.1 spaces_ne_nil
      (not_prefix_cons hb hs (core ++ ys.flatten)) xs hxs _ (Nat.le_refl _)
  have hrev : ((b :: core) ++ ys.flatten).reverse =
      (ys.reverse.map List.reverse).flatten ++ (b :: core).reverse := by
    rw [List.reverse_append, List.reverse_flatten, List.map_reverse]
  have hr : trimRight ((b :: core) ++ ys.flatten) = b :: core := by
    rw [trimRight, hrev, dropWords_spec]
    · rw [List.reverse_reverse]
    · intro v hv w hw hp
      obtain ⟨v, hv', rfl⟩ := List.mem_map.mp hv
      obtain ⟨w, hw', rfl⟩ := List.mem_map.mp hw
      rw [spaces_code.2.1 v hv' w hw' (List.reverse_prefix.mp hp)]
    · intro w hw
      obtain ⟨v, hv, rfl⟩ := List.mem_map.mp hw
      simpa using spaces_ne_nil v hv
    · intro w hw hp
      obtain ⟨v, hv, rfl⟩ := List.mem_map.mp hw
      exact hlast v hv (List.reverse_prefix.mp hp)
    · intro w hw
      obtain ⟨v, hv, rfl⟩ := List.mem_map.mp hw
      exact List.mem_map_of_mem (hys v (List.mem_reverse.mp hv))
    · exact Nat.le_of_eq (by rw [← hrev, List.length_reverse])
  rw [trimSpace, hl, hr]

theorem not_space_lowerByte {b : UInt8} (hb : b.toNat < 0x80) :
    [lowerByte b] ∈ spaces ↔ [b] ∈ spaces := by
  have hfix : ∀ c : UInt8, c.toNat < 0x80 → [c] ∈ spaces → c.toNat ≤ 0x40 := fun c hc hs =>
    Nat.le_trans (spaces_code.2.2 [c] hs c List.mem_cons_self hc).2.2 (by decide)
  have hlt : (lowerByte b).toNat < 0x80 := by
    rw [toNat_lowerByte]
    exact lowerASCII_lt hb
  constructor
  · intro hs
    rw [(lowerByte_eq_iff (Or.inl (hfix _ hlt hs))).mp rfl]
    exact hs
  · intro hs
    rw [(lowerByte_eq_iff (Or.inl (hfix b hb hs))).mpr rfl]
    exact hs

/-- Around text of ASCII bytes that are no white space. -/
theorem trimSpace_ascii {x y core : Bytes} (hx : Blank x) (hy : Blank y) (hne : core ≠ [])
    (h : ∀ b ∈ core, b.toNat < 0x80 ∧ [b] ∉ spaces) : trimSpace (x ++ core ++ y) = core := by
  cases core with
  | nil => exact absurd rfl hne
  | cons b core =>
    refine trimSpace_spec hx hy (h b List.mem_cons_self).1 (h b List.mem_cons_self).2 ?_
    rcases List.eq_nil_or_concat (b :: core) with he | ⟨z, c, he⟩
    · cases he
    · rw [List.concat_eq_append] at he
      have hc := h c (by rw [he]; simp)
      rw [he]
      exact not_suffix_concat hc.1 hc.2 z

theorem mapM_forall₂ {α β : Type} {f : α → Option β} {l : List α} {l' : List β}
    (h : l.mapM f = some l') : List.Forall₂ (fun a b => f a = some b) l l' := by
  induction l generalizing l' with
  | nil =>
    cases h
    exact .nil
  | cons a l ih =>
    rw [List.mapM_cons] at h
    obtain ⟨b, hb, h⟩ := Option.bind_eq_some_iff.mp h
    obtain ⟨bs, hbs, h⟩ := Option.bind_eq_some_iff.mp h
    cases h
    exact .cons hb (ih hbs)

def dot : UInt8 := 0x2E

/-- `strings.TrimSuffix`. -/
def trimSuffix (s suffix : Bytes) : Bytes :=
  if suffix.isSuffixOf s then s.take (s.length - suffix.length) else s

theorem trimSuffix_begins (s suffix : Bytes) : trimSuffix s suffix <+: s := by
  unfold trimSuffix
  split
  · exact List.take_prefix _ _
  · exact List.prefix_rfl

theorem trimSuffix_append (s suffix : Bytes) : trimSuffix (s ++ suffix) suffix = s := by
  simp [trimSuffix]

theorem trimSuffix_of_not {s : Bytes} {b : UInt8} (h : s.getLast? ≠ some b) :
    trimSuffix s [b] = s := by
  rw [trimSuffix, if_neg]
  intro hs
  obtain ⟨x, rfl⟩ := List.isSuffixOf_iff_suffix.mp hs
  simp at h

end GoText

end SplitProxy
