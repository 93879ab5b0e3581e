import SplitProxy.NetIPString

/-!
# Strings in JSON

How `encoding/json` writes a string: quotes, control bytes, the characters HTML
gives a meaning to and the two line separators are escaped, and a byte that
belongs to no rune is written as U+FFFD.
-/
namespace SplitProxy.GoText

open NetIP

/-- Bytes that stand for themselves: `htmlSafeSet`. -/
def htmlSafe (b : UInt8) : Bool :=
  0x20 ≤ b.toNat ∧ b.toNat < 0x80 ∧ b ≠ 0x22 ∧ b ≠ 0x5C ∧ b ≠ 0x3C ∧ b ≠ 0x3E ∧ b ≠ 0x26

/-- Bytes with an escape of two characters, and its second one. -/
def shortEscape (b : UInt8) : Option UInt8 :=
  if b = 0x22 then some 0x22
  else if b = 0x5C then some 0x5C
  else if b = 0x08 then some 0x62
  else if b = 0x0C then some 0x66
  else if b = 0x0A then some 0x6E
  else if b = 0x0D then some 0x72
  else if b = 0x09 then some 0x74
  else none

/-- `\u` and four digits. -/
def longEscape (n : Nat) : Bytes :=
  [0x5C, 0x75, digitByte (n / 0x1000 % 0x10), digitByte (n / 0x100 % 0x10),
    digitByte (n / 0x10 % 0x10), digitByte (n % 0x10)]

def escapeByte (b : UInt8) : Bytes :=
  if htmlSafe b then [b]
  else
    match shortEscape b with
    | some c => [0x5C, c]
    | none => longEscape b.toNat

def isLineSeparator (r : Nat) : Bool := r = 0x2028 ∨ r = 0x2029

/-- What is written for the rune that a byte begins, before `s`. -/
def escapeRune (b : UInt8) (s : Bytes) : Bytes :=
  if b.toNat < 0x80 then escapeByte b
  else if (decodeRune b s).2 = 0 then longEscape runeError
  else if isLineSeparator (decodeRune b s).1 then longEscape (decodeRune b s).1
  else b :: s.take (decodeRune b s).2

/-- The escaped text of a string whose first `k` bytes are already written. -/
def escapeFrom : Nat → Bytes → Bytes
  | _, [] => []
  | k + 1, _ :: s => escapeFrom k s
  | 0, b :: s => escapeRune b s ++ escapeFrom (decodeRune b s).2 s

def quote : UInt8 := 0x22

/-- `appendString` with `escapeHTML`. -/
def jsonString (s : Bytes) : Bytes := quote :: escapeFrom 0 s ++ [quote]

/-- What `json.Unmarshal` gives back for it: bytes that belong to no rune became U+FFFD. -/
def validUTF8 (s : Bytes) : Bytes := (decode s).flatMap encodeRune

/-! ## Lengths -/

/-- The bytes the character that `b` begins takes in JSON. -/
def runeCost (b : UInt8) (s : Bytes) : Nat :=
  if b.toNat < 0x80 then
    if htmlSafe b then 1 else if (shortEscape b).isSome then 2 else 6
  else if (decodeRune b s).2 = 0 ∨ isLineSeparator (decodeRune b s).1 then 6
  else (decodeRune b s).2 + 1

def costFrom : Nat → Bytes → Nat
  | _, [] => 0
  | k + 1, _ :: s => costFrom k s
  | 0, b :: s => runeCost b s + costFrom (decodeRune b s).2 s

/-- The bytes a text takes between the quotes. -/
def escapedLength (s : Bytes) : Nat := costFrom 0 s

theorem length_longEscape (n : Nat) : (longEscape n).length = 6 := rfl

theorem length_escapeRune (b : UInt8) (s : Bytes) : (escapeRune b s).length = runeCost b s := by
  rw [escapeRune, runeCost]
  by_cases hb : b.toNat < 0x80
  · rw [if_pos hb, if_pos hb, escapeByte]
    by_cases hsafe : htmlSafe b = true
    · rw [if_pos hsafe, if_pos hsafe]
      rfl
    · rw [if_neg hsafe, if_neg hsafe]
      cases shortEscape b <;> rfl
  · rw [if_neg hb, if_neg hb]
    by_cases h0 : (decodeRune b s).2 = 0
    · rw [if_pos h0, if_pos (Or.inl h0), length_longEscape]
    · rw [if_neg h0]
      by_cases hl : isLineSeparator (decodeRune b s).1 = true
      · rw [if_pos hl, if_pos (Or.inr hl), length_longEscape]
      · rw [if_neg hl, if_neg (not_or.mpr ⟨h0, hl⟩), List.length_cons, List.length_take]
        have hle := decodeRune_le b s
        omega

theorem length_escapeFrom (k : Nat) (s : Bytes) : (escapeFrom k s).length = costFrom k s := by
  induction s generalizing k with
  | nil => cases k <;> rfl
  | cons b s ih =>
    cases k with
    | zero => rw [escapeFrom, costFrom, List.length_append, length_escapeRune, ih]
    | succ k => exact ih k

theorem length_jsonString (s : Bytes) : (jsonString s).length = escapedLength s + 2 := by
  rw [jsonString, List.length_append, List.length_cons, length_escapeFrom, escapedLength]
  rfl

/-- At most three bytes continue a rune. -/
theorem decodeRune_continues_le (b : UInt8) (s : Bytes) : (decodeRune b s).2 ≤ 3 := by
  have hlead : ∀ n r, lead b = some (n, r) → n ≤ 3 := by
    intro n r h
    simp only [lead] at h
    split at h
    · cases h
      omega
    · split at h
      · cases h
        omega
      · split at h
        · cases h
          omega
        · split at h
          · cases h
            omega
          · cases h
  cases hl : lead b with
  | none => simp [decodeRune, hl]
  | some p =>
    have hn := hlead p.1 p.2 hl
    by_cases hc : continues b p.1 s = true
    · simpa [decodeRune, hl, hc] using hn
    · simp [decodeRune, hl, hc]

theorem runeCost_le (b : UInt8) (s : Bytes) : runeCost b s ≤ 6 := by
  have h := decodeRune_continues_le b s
  unfold runeCost
  split
  · split
    · omega
    · split <;> omega
  · split <;> omega

theorem costFrom_le (k : Nat) (s : Bytes) : costFrom k s ≤ 6 * (decodeFrom k s).length := by
  induction s generalizing k with
  | nil => cases k <;> exact Nat.zero_le _
  | cons b s ih =>
    cases k with
    | zero =>
      have h := runeCost_le b s
      have hs := ih (decodeRune b s).2
      rw [costFrom, decodeFrom, List.length_cons]
      omega
    | succ k => exact ih k

/-- Six bytes are enough for a character. -/
theorem escapedLength_le (s : Bytes) : escapedLength s ≤ 6 * (decode s).length := costFrom_le 0 s

theorem length_decodeFrom_le (k : Nat) (s : Bytes) : (decodeFrom k s).length ≤ s.length := by
  induction s generalizing k with
  | nil => cases k <;> exact Nat.le_refl _
  | cons b s ih =>
    cases k with
    | zero =>
      have hs := ih (decodeRune b s).2
      rw [decodeFrom, List.length_cons, List.length_cons]
      omega
    | succ k =>
      have hs := ih k
      rw [decodeFrom, List.length_cons]
      omega

theorem escapedLength_le_length (s : Bytes) : escapedLength s ≤ 6 * s.length := by
  have h := escapedLength_le s
  have hd : (decode s).length ≤ s.length := length_decodeFrom_le 0 s
  omega

/-- Plain text is written as it is. -/
theorem escapedLength_safe {s : Bytes} (h : ∀ b ∈ s, htmlSafe b = true) :
    escapedLength s = s.length := by
  rw [escapedLength]
  induction s with
  | nil => rfl
  | cons b s ih =>
    have hsafe := h b List.mem_cons_self
    have hb : b.toNat < 0x80 := by
      simp only [htmlSafe, decide_eq_true_eq] at hsafe
      exact hsafe.2.1
    rw [costFrom, runeCost, if_pos hb, if_pos hsafe, decodeRune_of_lt hb,
      ih fun c hc => h c (List.mem_cons_of_mem b hc), List.length_cons]
    omega

theorem length_encodeRune_le (r : Nat) : (encodeRune r).length ≤ 4 := by
  unfold encodeRune
  (repeat' split) <;> simp

theorem length_validUTF8_le (s : Bytes) : (validUTF8 s).length ≤ 4 * (decode s).length := by
  rw [validUTF8]
  induction decode s with
  | nil => exact Nat.le_refl _
  | cons r rs ih =>
    have hr := length_encodeRune_le r
    rw [List.flatMap_cons, List.length_append, List.length_cons]
    omega

end SplitProxy.GoText
