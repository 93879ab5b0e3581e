import SplitProxy.AddressText

/-!
# Python's `int`

The texts that `int` reads, as the panel meets them in query strings and bodies.
-/
namespace SplitProxy.Py

open GoText NetIP

/-- The zeros among the decimal digits of Unicode 15; nine digits follow each. -/
def decimalZeros : List Nat :=
  [0x30, 0x660, 0x6F0, 0x7C0, 0x966, 0x9E6, 0xA66, 0xAE6, 0xB66, 0xBE6, 0xC66, 0xCE6, 0xD66, 0xDE6,
    0xE50, 0xED0, 0xF20, 0x1040, 0x1090, 0x17E0, 0x1810, 0x1946, 0x19D0, 0x1A80, 0x1A90, 0x1B50,
    0x1BB0, 0x1C40, 0x1C50, 0xA620, 0xA8D0, 0xA900, 0xA9D0, 0xA9F0, 0xAA50, 0xABF0, 0xFF10, 0x104A0,
    0x10D30, 0x11066, 0x110F0, 0x11136, 0x111D0, 0x112F0, 0x11450, 0x114D0, 0x11650, 0x116C0,
    0x11730, 0x118E0, 0x11950, 0x11C50, 0x11D50, 0x11DA0, 0x11F50, 0x16A60, 0x16AC0, 0x16B50,
    0x1D7CE, 0x1D7D8, 0x1D7E2, 0x1D7EC, 0x1D7F6, 0x1E140, 0x1E2F0, 0x1E4F0, 0x1E950, 0x1FBF0]

def digitValue (r : Nat) : Option Nat :=
  (decimalZeros.find? (fun z => z ≤ r ∧ r < z + 10)).map (r - ·)

/-- The digits of a numeral; one underscore may stand between two of them. The flag
says whether a digit stands before the rest. -/
def readDigits : Bool → List Nat → Option (List Nat)
  | after, [] => if after then some [] else none
  | after, r :: rs =>
    if r = 0x5F then
      if after then readDigits false rs else none
    else
      match digitValue r with
      | none => none
      | some d => (readDigits true rs).map (d :: ·)

/-- More digits than `sys.get_int_max_str_digits` are refused. -/
def readNat (rs : List Nat) : Option Nat :=
  match readDigits false rs with
  | none => none
  | some ds => if ds.length ≤ 4300 then some (ofDigits 10 ds) else none

/-- `int` of a text, `none` for its `ValueError`. The white space it strips is that
of `spaces`, not all that `str.strip` takes. -/
def int (s : Bytes) : Option Int :=
  match decode (trimSpace s) with
  | [] => none
  | r :: rs =>
    if r = 0x2B then (readNat rs).map (Int.ofNat ·)
    else if r = 0x2D then (readNat rs).map (fun n => -(n : Int))
    else (readNat (r :: rs)).map (Int.ofNat ·)

/-- The bytes of the ten digits. -/
theorem digitByte_range : ∀ d < 10, 0x2F < (digitByte d).toNat ∧ (digitByte d).toNat < 0x3A := by
  decide

theorem digitValue_ascii : ∀ d < 10, digitValue (digitByte d).toNat = some d := by decide

/-- Before anything but an underscore the flag does not matter. -/
theorem readDigits_first {r : Nat} (h : r ≠ 0x5F) (rs : List Nat) :
    readDigits false (r :: rs) = readDigits true (r :: rs) := by
  rw [readDigits, readDigits, if_neg h, if_neg h]

/-- Digits alone are read one by one. -/
theorem readDigits_ascii {ds : List Nat} (hd : ∀ d ∈ ds, d < 10) :
    readDigits true (ds.map fun d => (digitByte d).toNat) = some ds := by
  induction ds with
  | nil => rfl
  | cons d ds ih =>
    have hlt := hd d List.mem_cons_self
    have hrange := digitByte_range d hlt
    rw [List.map_cons, readDigits, if_neg (by omega), digitValue_ascii d hlt]
    rw [ih fun e he => hd e (List.mem_cons_of_mem d he)]
    rfl

theorem readNat_ascii {d : Nat} {ds : List Nat} (hd : ∀ e ∈ d :: ds, e < 10)
    (hlen : (d :: ds).length ≤ 4300) :
    readNat ((d :: ds).map fun d => (digitByte d).toNat) = some (ofDigits 10 (d :: ds)) := by
  have hrange := digitByte_range d (hd d List.mem_cons_self)
  have hread := readDigits_ascii hd
  rw [List.map_cons] at hread ⊢
  rw [readNat, readDigits_first (by omega), hread]
  exact if_pos hlen

/-- ASCII bytes are their own runes. -/
theorem decode_ascii {s : Bytes} (h : ∀ b ∈ s, b.toNat < 0x80) : decode s = s.map UInt8.toNat := by
  induction s with
  | nil => rfl
  | cons b s ih =>
    have hb := h b List.mem_cons_self
    have hs := ih fun c hc => h c (List.mem_cons_of_mem b hc)
    rw [decode, decodeFrom, decodeRune_of_lt hb, List.map_cons, ← hs]
    rfl

/-- The decimal text of a number is read as the number. -/
theorem int_itoa {n : Nat} (h : (itoa n).length ≤ 4300) : int (itoa n) = some (n : Int) := by
  have hlt := @digitsFrom_lt 10 (by decide) (n + 1) n
  have hval := @ofDigits_digitsFrom 10 (by decide) (n + 1) n (Nat.lt_succ_self n)
  obtain ⟨d, ds, hds⟩ := List.exists_cons_of_ne_nil (digitsFrom_ne_nil 10 n n)
  have hlen : (d :: ds).length ≤ 4300 := by rwa [itoa, numeral, hds, List.length_map] at h
  rw [hds] at hlt hval
  have hascii : ∀ b ∈ itoa n, 0x2F < b.toNat ∧ b.toNat < 0x3A := by
    intro b hb
    rw [itoa, numeral, hds] at hb
    obtain ⟨e, he, rfl⟩ := List.mem_map.mp hb
    exact digitByte_range e (hlt e he)
  have hspace : ∀ b ∈ itoa n, b.toNat < 0x80 ∧ [b] ∉ spaces := by
    intro b hb
    have hrange := hascii b hb
    exact ⟨by omega, not_space_of_gt (by omega) (by omega)⟩
  have hne : itoa n ≠ [] := by
    rw [itoa, numeral, hds]
    exact List.cons_ne_nil _ _
  have htrim : trimSpace (itoa n) = itoa n := by
    have hblank : Blank [] := ⟨[], (by simp), rfl⟩
    have hcore := trimSpace_ascii hblank hblank hne hspace
    rwa [List.nil_append, List.append_nil] at hcore
  have hrunes : decode (trimSpace (itoa n)) = (d :: ds).map fun d => (digitByte d).toNat := by
    rw [htrim, decode_ascii fun b hb => (hspace b hb).1, itoa, numeral, hds,
      List.map_map]
    rfl
  have hfirst := digitByte_range d (hlt d List.mem_cons_self)
  rw [int, hrunes, List.map_cons]
  simp only
  rw [if_neg (by omega), if_neg (by omega)]
  have hread := readNat_ascii hlt hlen
  rw [List.map_cons] at hread
  rw [hread, hval]
  rfl

end SplitProxy.Py
