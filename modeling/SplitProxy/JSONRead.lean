import SplitProxy.JSONText
import SplitProxy.RuneText
import SplitProxy.AddressText

/-!
# Reading JSON strings

How `encoding/json` reads a string and an object of strings. What `json.Marshal`
has written for a text reads as that text with every byte that belongs to no rune
replaced, so exactly the texts in UTF-8 come back as they were.
-/
namespace SplitProxy.GoText

open NetIP

def backslash : UInt8 := 0x5C

/-- `getu4`: the number of an escape that stands at the start of a text. -/
def getu4 : Bytes → Option Nat
  | b :: u :: c₁ :: c₂ :: c₃ :: c₄ :: _ =>
    if b = backslash ∧ u = 0x75 then
      match hexVal c₁, hexVal c₂, hexVal c₃, hexVal c₄ with
      | some d₁, some d₂, some d₃, some d₄ => some (((d₁ * 0x10 + d₂) * 0x10 + d₃) * 0x10 + d₄)
      | _, _, _, _ => none
    else none
  | _ => none

def isSurrogate (r : Nat) : Bool := 0xD800 ≤ r ∧ r < 0xE000

/-- `utf16.DecodeRune` -/
def pairedRune (r₁ r₂ : Nat) : Nat :=
  if 0xD800 ≤ r₁ ∧ r₁ < 0xDC00 ∧ 0xDC00 ≤ r₂ ∧ r₂ < 0xE000 then
    (r₁ - 0xD800) * 0x400 + (r₂ - 0xDC00) + 0x10000
  else runeError

/-- The escapes of one character after the backslash. -/
def unescapeByte (c : UInt8) : Option UInt8 :=
  if c = 0x22 ∨ c = backslash ∨ c = 0x2F then some c
  else if c = 0x62 then some 0x08
  else if c = 0x66 then some 0x0C
  else if c = 0x6E then some 0x0A
  else if c = 0x72 then some 0x0D
  else if c = 0x74 then some 0x09
  else none

/-- What `unquote` makes of the character that `b` begins, and how many bytes after `b`
it takes. -/
def unquoteRune (b : UInt8) (s : Bytes) : Option (Bytes × Nat) :=
  if b = backslash then
    match s with
    | [] => none
    | c :: _ =>
      match unescapeByte c with
      | some a => some ([a], 1)
      | none =>
        match getu4 (b :: s) with
        | none => none
        | some r =>
          if isSurrogate r then
            match getu4 (s.drop 5) with
            | some r' =>
              if pairedRune r r' = runeError then some (encodeRune runeError, 5)
              else some (encodeRune (pairedRune r r'), 11)
            | none => some (encodeRune runeError, 5)
          else some (encodeRune r, 5)
  else if b.toNat < 0x20 then none
  else if b.toNat < 0x80 then some ([b], 0)
  else some (encodeRune (decodeRune b s).1, (decodeRune b s).2)

/-- The text up to the closing quote, and what follows that; the first `k` bytes are
already read. -/
def unquoteFrom : Nat → Bytes → Option (Bytes × Bytes)
  | _, [] => none
  | k + 1, _ :: s => unquoteFrom k s
  | 0, b :: s =>
    if b = quote then some ([], s)
    else
      match unquoteRune b s with
      | none => none
      | some (text, n) => (unquoteFrom n s).map (fun r => (text ++ r.1, r.2))

def readString : Bytes → Option (Bytes × Bytes)
  | [] => none
  | b :: s => if b = quote then unquoteFrom 0 s else none

def expectByte (b : UInt8) : Bytes → Option Bytes
  | [] => none
  | c :: s => if c = b then some s else none

/-- The members of an object; all values are strings, and nothing stands between the tokens. -/
def readMembers : Nat → Bytes → Option (List (Bytes × Bytes) × Bytes)
  | 0, _ => none
  | fuel + 1, s =>
    match readString s with
    | none => none
    | some (key, s) =>
      match (expectByte 0x3A s).bind readString with
      | none => none
      | some (value, s) =>
        match expectByte 0x2C s with
        | none => some ([(key, value)], s)
        | some s => (readMembers fuel s).map (fun r => ((key, value) :: r.1, r.2))

/-- An object of strings and nothing after it. -/
def readObject (s : Bytes) : Option (List (Bytes × Bytes)) :=
  match (expectByte 0x7B s).bind (readMembers s.length) with
  | none => none
  | some (members, rest) => if rest = [0x7D] then some members else none

/-- The field of a struct that a key fills: a later member overwrites an earlier one. -/
def member (members : List (Bytes × Bytes)) (key : Bytes) : Bytes :=
  (members.foldl (fun found m => if m.1 = key then some m.2 else found) none).getD []

/-! ## Valid UTF-8 -/

def validFrom : Nat → Bytes → Bool
  | _, [] => true
  | k + 1, _ :: s => validFrom k s
  | 0, b :: s =>
    (b.toNat < 0x80 || (decodeRune b s).2 ≠ 0) && validFrom (decodeRune b s).2 s

/-- `utf8.ValidString` -/
def validString (s : Bytes) : Bool := validFrom 0 s

theorem validFrom_drop (k : Nat) (s : Bytes) (h : k ≤ s.length) :
    validFrom k s = validString (s.drop k) := by
  induction s generalizing k with
  | nil => cases k <;> rfl
  | cons b s ih =>
    cases k with
    | zero => rfl
    | succ k => exact ih k (by simpa using h)

theorem validString_cons (b : UInt8) (s : Bytes) : validString (b :: s) =
    ((b.toNat < 0x80 || (decodeRune b s).2 ≠ 0) && validString (s.drop (decodeRune b s).2)) := by
  rw [validString, validFrom, validFrom_drop _ _ (decodeRune_le b s)]

theorem validUTF8_cons (b : UInt8) (s : Bytes) : validUTF8 (b :: s) =
    encodeRune (decodeRune b s).1 ++ validUTF8 (s.drop (decodeRune b s).2) := by
  rw [validUTF8, decode_cons, List.flatMap_cons]
  rfl

theorem encodeRune_runeError : encodeRune runeError = [0xEF, 0xBF, 0xBD] := by decide

/-- A byte that belongs to no rune does not come back. -/
theorem replaced_ne {b : UInt8} {s t : Bytes} (h : decodeRune b s = (runeError, 0)) :
    encodeRune runeError ++ t ≠ b :: s := by
  intro heq
  rw [encodeRune_runeError] at heq
  obtain ⟨rfl, rfl⟩ := List.cons.inj heq
  have hrune : decodeRune 0xEF (0xBF :: 0xBD :: t) = (_, 2) :=
    @decodeRune_three 0xEF 0xBF 0xBD 0xF (by decide) (by decide) (by decide) (by decide) t
  rw [show [0xBF, 0xBD].append t = 0xBF :: 0xBD :: t from rfl, hrune] at h
  cases h

theorem validUTF8_eq_iff (s : Bytes) : validUTF8 s = s ↔ validString s = true := by
  induction hlen : s.length using Nat.strongRecOn generalizing s with
  | ind n ih =>
    cases s with
    | nil => exact ⟨fun _ => rfl, fun _ => rfl⟩
    | cons b s =>
      have hrest := ih _ (by rw [List.length_drop, ← hlen, List.length_cons]; omega)
        (s.drop (decodeRune b s).2) rfl
      rw [validUTF8_cons, validString_cons]
      rcases decodeRune_cases b s with herr | ⟨henc, -⟩
      · have hb : ¬b.toNat < 0x80 := by
          intro hb
          rw [decodeRune_of_lt hb] at herr
          have hval := (Prod.mk.inj herr).1
          rw [runeError] at hval
          omega
        rw [herr]
        simp only [hb, decide_false, ne_eq, not_true_eq_false, Bool.or_self, Bool.false_and,
          Bool.false_eq_true, iff_false]
        exact replaced_ne herr
      · have hhead : (b.toNat < 0x80 || (decodeRune b s).2 ≠ 0) = true := by
          by_cases hb : b.toNat < 0x80
          · simp [hb]
          · have hne : (decodeRune b s).2 ≠ 0 := by
              intro h0
              have hge := decodeRune_ge (Nat.le_of_not_lt hb) s
              rw [h0, List.take_zero, encodeRune, if_neg (by omega)] at henc
              have hlen := congrArg List.length henc
              split at hlen
              · simp at hlen
              · split at hlen
                · simp at hlen
                · split at hlen <;> simp at hlen
            simp [hne]
        rw [hhead, Bool.true_and, ← hrest]
        have hsplit : b :: s = encodeRune (decodeRune b s).1 ++ s.drop (decodeRune b s).2 := by
          rw [← henc, List.cons_append, List.take_append_drop]
        constructor
        · intro h
          rw [hsplit] at h
          exact List.append_cancel_left h
        · intro h
          rw [h, ← hsplit]

/-! ## What has been written is read back -/

theorem unquoteFrom_skip (u t : Bytes) : unquoteFrom u.length (u ++ t) = unquoteFrom 0 t := by
  induction u with
  | nil => rfl
  | cons b u ih => exact ih

theorem unquoteFrom_rune {b : UInt8} {u t text : Bytes} (hb : b ≠ quote)
    (h : unquoteRune b (u ++ t) = some (text, u.length)) :
    unquoteFrom 0 (b :: (u ++ t)) = (unquoteFrom 0 t).map (fun r => (text ++ r.1, r.2)) := by
  rw [unquoteFrom, if_neg hb, h]
  simp only [unquoteFrom_skip]

/-- The escape of a number below 0x10000 that is no surrogate. -/
theorem unquoteRune_longEscape {n : Nat} (hn : n < 0x10000) (hs : isSurrogate n = false) (t : Bytes) :
    unquoteFrom 0 (longEscape n ++ t) =
      (unquoteFrom 0 t).map (fun r => (encodeRune n ++ r.1, r.2)) := by
  have hbyte : unescapeByte 0x75 = none := by decide
  have hnum : ((n / 0x1000 % 0x10 * 0x10 + n / 0x100 % 0x10) * 0x10 + n / 0x10 % 0x10) * 0x10 +
      n % 0x10 = n := by omega
  have hget : ∀ u, getu4 (backslash :: 0x75 :: digitByte (n / 0x1000 % 0x10) ::
      digitByte (n / 0x100 % 0x10) :: digitByte (n / 0x10 % 0x10) :: digitByte (n % 0x10) :: u) =
      some n := by
    intro u
    rw [getu4, if_pos ⟨rfl, rfl⟩, hexVal_digitByte _ (Nat.mod_lt _ (by omega)),
      hexVal_digitByte _ (Nat.mod_lt _ (by omega)), hexVal_digitByte _ (Nat.mod_lt _ (by omega)),
      hexVal_digitByte _ (Nat.mod_lt _ (by omega))]
    exact congrArg some hnum
  refine @unquoteFrom_rune backslash [0x75, digitByte (n / 0x1000 % 0x10),
    digitByte (n / 0x100 % 0x10), digitByte (n / 0x10 % 0x10), digitByte (n % 0x10)] t
    (encodeRune n) (by decide) ?_
  simp only [unquoteRune, if_pos, List.cons_append, List.nil_append, hbyte, hget, hs]
  rfl

theorem unescapeByte_shortEscape {b c : UInt8} (h : shortEscape b = some c) :
    unescapeByte c = some b := by
  simp only [shortEscape] at h
  repeat' split at h
  all_goals cases h
  all_goals
    subst b
    decide

theorem encodeRune_toNat {b : UInt8} (hb : b.toNat < 0x80) : encodeRune b.toNat = [b] := by
  rw [encodeRune, if_pos hb, UInt8.ofNat_toNat]

theorem unquote_escapeByte {b : UInt8} (hb : b.toNat < 0x80) (t : Bytes) :
    unquoteFrom 0 (escapeByte b ++ t) = (unquoteFrom 0 t).map (fun r => (b :: r.1, r.2)) := by
  by_cases hsafe : htmlSafe b = true
  · rw [escapeByte, if_pos hsafe]
    simp only [htmlSafe, decide_eq_true_eq] at hsafe
    obtain ⟨hge, -, hquote, hslash, -⟩ := hsafe
    refine @unquoteFrom_rune b [] t [b] hquote ?_
    unfold unquoteRune
    rw [if_neg (show b ≠ backslash from hslash), if_neg (by omega), if_pos hb]
    rfl
  · rw [escapeByte, if_neg hsafe]
    cases hshort : shortEscape b with
    | some c =>
      refine @unquoteFrom_rune backslash [c] t [b] (by decide) ?_
      simp only [unquoteRune, if_pos, List.cons_append, List.nil_append,
        unescapeByte_shortEscape hshort]
      rfl
    | none =>
      have hlong := @unquoteRune_longEscape b.toNat (by omega)
        (by simp only [isSurrogate, decide_eq_false_iff_not]; omega) t
      rw [encodeRune_toNat hb] at hlong
      exact hlong

theorem unquote_escapeRune (b : UInt8) (s t : Bytes) :
    unquoteFrom 0 (escapeRune b s ++ t) =
      (unquoteFrom 0 t).map (fun r => (encodeRune (decodeRune b s).1 ++ r.1, r.2)) := by
  rw [escapeRune]
  by_cases hb : b.toNat < 0x80
  · rw [if_pos hb, decodeRune_of_lt hb, encodeRune_toNat hb]
    exact unquote_escapeByte hb t
  · rw [if_neg hb]
    by_cases h0 : (decodeRune b s).2 = 0
    · have herr : (decodeRune b s).1 = runeError := by
        rcases decodeRune_cases b s with h | ⟨henc, -⟩
        · rw [h]
        · rw [h0, List.take_zero] at henc
          have hge := decodeRune_ge (Nat.le_of_not_lt hb) s
          have hlen := congrArg List.length henc
          rw [encodeRune, if_neg (by omega)] at hlen
          repeat' split at hlen
          all_goals simp at hlen
      rw [if_pos h0, herr]
      exact unquoteRune_longEscape (by decide) (by decide) t
    · rw [if_neg h0]
      by_cases hl : isLineSeparator (decodeRune b s).1 = true
      · rw [if_pos hl]
        simp only [isLineSeparator, decide_eq_true_eq] at hl
        rcases hl with hl | hl
        · rw [hl]
          exact unquoteRune_longEscape (by decide) (by decide) t
        · rw [hl]
          exact unquoteRune_longEscape (by decide) (by decide) t
      · rw [if_neg hl]
        rcases decodeRune_cases b s with h | ⟨henc, hscalar⟩
        · rw [h] at h0
          exact absurd rfl h0
        · obtain ⟨b', rest, he, hd⟩ := decodeRune_encodeRune (decodeRune b s).1 t
          rw [← henc] at he
          obtain ⟨rfl, rfl⟩ := List.cons.inj he
          rw [hscalar] at hd
          have hquote : b ≠ quote := by
            rintro rfl
            exact hb (by decide)
          have hslash : b ≠ backslash := by
            rintro rfl
            exact hb (by decide)
          refine unquoteFrom_rune hquote ?_
          unfold unquoteRune
          rw [if_neg hslash, if_neg (by omega), if_neg hb, hd]

theorem unquote_escapeFrom (k : Nat) (s t : Bytes) :
    unquoteFrom 0 (escapeFrom k s ++ quote :: t) = some ((decodeFrom k s).flatMap encodeRune, t) := by
  induction s generalizing k with
  | nil =>
    cases k <;> rfl
  | cons b s ih =>
    cases k with
    | zero =>
      rw [escapeFrom, List.append_assoc, unquote_escapeRune, ih, decodeFrom, List.flatMap_cons]
      rfl
    | succ k => exact ih k

theorem readString_jsonString (s t : Bytes) :
    readString (jsonString s ++ t) = some (validUTF8 s, t) := by
  have h := unquote_escapeFrom 0 s t
  rw [jsonString, List.cons_append, List.cons_append, List.append_assoc, readString, if_pos rfl]
  exact h

/-- The members of an object as `json.Marshal` writes a struct of strings. -/
def writeMembers : List (Bytes × Bytes) → Bytes
  | [] => []
  | [m] => jsonString m.1 ++ 0x3A :: jsonString m.2
  | m :: ms => jsonString m.1 ++ 0x3A :: (jsonString m.2 ++ 0x2C :: writeMembers ms)

def writeObject (members : List (Bytes × Bytes)) : Bytes := 0x7B :: (writeMembers members ++ [0x7D])

/-- A member whose key and value are in UTF-8. -/
def validMember (m : Bytes × Bytes) : Bytes × Bytes := (validUTF8 m.1, validUTF8 m.2)

theorem readMembers_writeMembers (m : Bytes × Bytes) (ms : List (Bytes × Bytes)) (fuel : Nat)
    (h : ms.length < fuel) :
    readMembers fuel (writeMembers (m :: ms) ++ [0x7D]) = some ((m :: ms).map validMember, [0x7D]) := by
  induction ms generalizing m fuel with
  | nil =>
    obtain ⟨fuel, rfl⟩ := Nat.exists_eq_succ_of_ne_zero (Nat.ne_of_gt h)
    simp only [writeMembers, List.append_assoc, List.cons_append, readMembers, readString_jsonString,
      expectByte, ↓reduceIte, Option.bind_some]
    rfl
  | cons m' ms ih =>
    obtain ⟨fuel, rfl⟩ := Nat.exists_eq_succ_of_ne_zero (Nat.ne_of_gt (Nat.lt_of_le_of_lt (Nat.zero_le _) h))
    simp only [writeMembers, List.append_assoc, List.cons_append, readMembers, readString_jsonString,
      expectByte, ↓reduceIte, Option.bind_some, ih m' fuel (by simpa using h), Option.map_some]
    rfl

theorem length_le_writeMembers (ms : List (Bytes × Bytes)) : ms.length ≤ (writeMembers ms).length := by
  induction ms with
  | nil => exact Nat.le_refl _
  | cons m ms ih =>
    cases ms with
    | nil =>
      simp only [writeMembers, List.length_append, List.length_cons, List.length_nil]
      omega
    | cons m' ms =>
      simp only [writeMembers, List.length_append, List.length_cons] at ih ⊢
      omega

/-- An object comes back with its texts in UTF-8. -/
theorem readObject_writeObject (m : Bytes × Bytes) (ms : List (Bytes × Bytes)) :
    readObject (writeObject (m :: ms)) = some ((m :: ms).map validMember) := by
  have hlen := length_le_writeMembers (m :: ms)
  have hread := readMembers_writeMembers m ms (writeObject (m :: ms)).length (by
    rw [writeObject, List.length_cons, List.length_append]
    rw [List.length_cons] at hlen
    omega)
  rw [readObject, writeObject, expectByte, if_pos rfl, Option.bind_some]
  rw [writeObject] at hread
  rw [hread]
  exact if_pos rfl

end SplitProxy.GoText
