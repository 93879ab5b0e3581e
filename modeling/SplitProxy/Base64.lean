import SplitProxy.HTTPConnect

/-!
# What a client encodes

The other side of `base64.StdEncoding.DecodeString`: the encoder with padding, and that
every text of bytes comes back.
-/
namespace SplitProxy.Base64

open GoText NetIP HTTPConnect

/-- The character of six bits. -/
def letter (n : Nat) : UInt8 :=
  if n < 26 then UInt8.ofNat (0x41 + n)
  else if n < 52 then UInt8.ofNat (0x61 + (n - 26))
  else if n < 62 then UInt8.ofNat (0x30 + (n - 52))
  else if n = 62 then 0x2B
  else 0x2F

/-- The four groups of six bits of three bytes. -/
def sextets (a b c : UInt8) : List Nat :=
  let val := a.toNat * 0x10000 + b.toNat * 0x100 + c.toNat
  [val / 0x40000, val / 0x1000 % 0x40, val / 0x40 % 0x40, val % 0x40]

/-- `base64.StdEncoding.EncodeToString`. -/
def encodeToString : Bytes → Bytes
  | [] => []
  | [a] => ((sextets a 0 0).take 2).map letter ++ [padChar, padChar]
  | [a, b] => ((sextets a b 0).take 3).map letter ++ [padChar]
  | a :: b :: c :: rest => (sextets a b c).map letter ++ encodeToString rest

example : encodeToString (ascii "alice:secret") = ascii "YWxpY2U6c2VjcmV0" := by decide

/-! ## Decoding what was encoded -/

theorem sextet_letter : ∀ n < 64, sextet (letter n) = some n := by decide

theorem letter_plain : ∀ n < 64, letter n ≠ padChar ∧ letter n ≠ 0x0A ∧ letter n ≠ 0x0D := by
  decide

theorem sextets_lt (a b c : UInt8) : ∀ n ∈ sextets a b c, n < 64 := by
  have ha := a.toNat_lt
  have hb := b.toNat_lt
  have hc := c.toNat_lt
  intro n hn
  simp only [sextets, List.mem_cons, List.not_mem_nil, or_false] at hn
  omega

theorem ofDigits_sextets (a b c : UInt8) :
    ofDigits 64 (sextets a b c) = a.toNat * 0x10000 + b.toNat * 0x100 + c.toNat := by
  simp only [sextets, ofDigits, List.foldl_cons, List.foldl_nil]
  omega

theorem quantum_sextets (n : Nat) (a b c : UInt8) :
    quantum n (sextets a b c) = [a, b, c].take n := by
  have ha := a.toNat_lt
  have hb := b.toNat_lt
  have hc := c.toNat_lt
  have hfirst : (a.toNat * 0x10000 + b.toNat * 0x100 + c.toNat) / 0x10000 = a.toNat := by omega
  have hsecond : (a.toNat * 0x10000 + b.toNat * 0x100 + c.toNat) / 0x100 % 0x100 = b.toNat := by
    omega
  have hthird : (a.toNat * 0x10000 + b.toNat * 0x100 + c.toNat) % 0x100 = c.toNat := by omega
  simp only [quantum, ofDigits_sextets, hfirst, hsecond, hthird, UInt8.ofNat_toNat]

/-- A quantum of three bytes is read back, and the rest after it. -/
theorem decodeQuanta_letters (a b c : UInt8) (s : Bytes) :
    decodeQuanta ((sextets a b c).map letter ++ s) = (decodeQuanta s).map ([a, b, c] ++ ·) := by
  have hlt := sextets_lt a b c
  have hquantum := quantum_sextets 3 a b c
  simp only [sextets, List.mem_cons, List.not_mem_nil, or_false, forall_eq_or_imp,
    forall_eq] at hlt
  obtain ⟨h1, h2, h3, h4⟩ := hlt
  simp only [sextets] at hquantum
  simp only [sextets, List.map_cons, List.map_nil, List.cons_append, List.nil_append, decodeQuanta,
    sextet_letter _ h1, sextet_letter _ h2, sextet_letter _ h3, sextet_letter _ h4,
    (letter_plain _ h3).1, (letter_plain _ h4).1, ↓reduceIte, hquantum, List.take_succ_cons,
    List.take_zero]

/-- The groups that padding stands for are zero. -/
theorem sextets_one (a : UInt8) : ∃ x y, sextets a 0 0 = [x, y, 0, 0] := by
  refine ⟨_, _, List.cons_eq_cons.mpr ⟨rfl, List.cons_eq_cons.mpr ⟨rfl, ?_⟩⟩⟩
  simp only [UInt8.toNat_zero, List.cons.injEq, and_true]
  omega

theorem sextets_two (a b : UInt8) : ∃ x y z, sextets a b 0 = [x, y, z, 0] := by
  refine ⟨_, _, _,
    List.cons_eq_cons.mpr ⟨rfl, List.cons_eq_cons.mpr ⟨rfl, List.cons_eq_cons.mpr ⟨rfl, ?_⟩⟩⟩⟩
  simp only [UInt8.toNat_zero, List.cons.injEq, and_true]
  omega

theorem decodeQuanta_encodeToString (s : Bytes) : decodeQuanta (encodeToString s) = some s := by
  induction s using encodeToString.induct with
  | case1 => rfl
  | case2 a =>
    obtain ⟨x, y, hs⟩ := sextets_one a
    have hlt := sextets_lt a 0 0
    have hquantum := quantum_sextets 1 a 0 0
    rw [hs] at hlt hquantum
    have hx := sextet_letter x (hlt x (by simp))
    have hy := sextet_letter y (hlt y (by simp))
    rw [encodeToString, hs]
    simp [decodeQuanta, hx, hy, hquantum]
  | case3 a b =>
    obtain ⟨x, y, z, hs⟩ := sextets_two a b
    have hlt := sextets_lt a b 0
    have hquantum := quantum_sextets 2 a b 0
    rw [hs] at hlt hquantum
    have hx := sextet_letter x (hlt x (by simp))
    have hy := sextet_letter y (hlt y (by simp))
    have hz := sextet_letter z (hlt z (by simp))
    have hpad := (letter_plain z (hlt z (by simp))).1
    rw [encodeToString, hs]
    simp [decodeQuanta, hx, hy, hz, hpad, hquantum]
  | case4 a b c rest ih =>
    rw [encodeToString, decodeQuanta_letters, ih]
    rfl

theorem encodeToString_plain (s : Bytes) : ∀ c ∈ encodeToString s, c ≠ 0x0A ∧ c ≠ 0x0D := by
  have hletters : ∀ a b c : UInt8, ∀ x ∈ (sextets a b c).map letter, x ≠ 0x0A ∧ x ≠ 0x0D := by
    intro a b c x hx
    obtain ⟨n, hn, rfl⟩ := List.mem_map.mp hx
    exact (letter_plain n (sextets_lt a b c n hn)).2
  have hpad : padChar ≠ 0x0A ∧ padChar ≠ 0x0D := by decide
  induction s using encodeToString.induct with
  | case1 => exact fun c hc => absurd hc List.not_mem_nil
  | case2 a =>
    intro c hc
    rcases List.mem_append.mp hc with hc | hc
    · exact hletters a 0 0 c (List.mem_map.mpr
        ((List.mem_map.mp hc).imp fun n hn => ⟨List.mem_of_mem_take hn.1, hn.2⟩))
    · simp only [List.mem_cons, List.not_mem_nil, or_false, or_self] at hc
      exact hc ▸ hpad
  | case3 a b =>
    intro c hc
    rcases List.mem_append.mp hc with hc | hc
    · exact hletters a b 0 c (List.mem_map.mpr
        ((List.mem_map.mp hc).imp fun n hn => ⟨List.mem_of_mem_take hn.1, hn.2⟩))
    · exact List.mem_singleton.mp hc ▸ hpad
  | case4 a b c rest ih =>
    intro x hx
    rcases List.mem_append.mp hx with hx | hx
    · exact hletters a b c x hx
    · exact ih x hx

/-- Every text comes back from its encoding. -/
theorem decodeString_encodeToString (s : Bytes) : decodeString (encodeToString s) = some s := by
  have hfilter : (encodeToString s).filter (fun c => c ≠ 0x0A ∧ c ≠ 0x0D) = encodeToString s := by
    rw [List.filter_eq_self]
    exact fun c hc => by simpa using encodeToString_plain s c hc
  rw [decodeString, hfilter, decodeQuanta_encodeToString]

end SplitProxy.Base64
