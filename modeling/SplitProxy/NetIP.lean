import SplitProxy.GoText

/-!
# IP addresses and prefixes

The parts of `net/netip` the proxy rests on: addresses with their zone, the
predicates of the direct-target policy, prefixes and their masking. An address
is its 32 or 128 bits, so every predicate can be read off the bits.
-/
namespace SplitProxy

namespace NetIP

/-- `netip.Addr`: the zero value, an IPv4 or an IPv6 address, the last with a zone. -/
inductive Addr where
  | invalid
  | v4 (bits : BitVec 32)
  | v6 (bits : BitVec 128) (zone : Bytes)
  deriving DecidableEq, Repr

namespace Addr

def isValid : Addr → Bool
  | invalid => false
  | _ => true

def is4 : Addr → Bool
  | v4 _ => true
  | _ => false

def is6 : Addr → Bool
  | v6 _ _ => true
  | _ => false

/-- An IPv4-mapped IPv6 address, `::ffff:0:0/96`. -/
def is4In6 : Addr → Bool
  | v6 b _ => b >>> 32 = 0xffff#128
  | _ => false

/-- IPv4-mapped addresses become IPv4 and lose their zone. -/
def unmap : Addr → Addr
  | v6 b z => if (v6 b z).is4In6 then v4 (b.setWidth 32) else v6 b z
  | a => a

def withoutZone : Addr → Addr
  | v6 b _ => v6 b []
  | a => a

def bitLen : Addr → Nat
  | invalid => 0
  | v4 _ => 32
  | v6 _ _ => 128

def isLoopback (a : Addr) : Bool :=
  match a.unmap with
  | v4 b => b >>> 24 = 127#32
  | v6 b _ => b = 1#128
  | invalid => false

def isPrivate (a : Addr) : Bool :=
  match a.unmap with
  | v4 b => b >>> 24 = 10#32 ∨ b >>> 20 = 0xac1#32 ∨ b >>> 16 = 0xc0a8#32
  | v6 b _ => b >>> 121 = 0x7e#128
  | invalid => false

def isLinkLocalUnicast (a : Addr) : Bool :=
  match a.unmap with
  | v4 b => b >>> 16 = 0xa9fe#32
  | v6 b _ => b >>> 118 = 0x3fa#128
  | invalid => false

def isMulticast (a : Addr) : Bool :=
  match a.unmap with
  | v4 b => b >>> 28 = 0xe#32
  | v6 b _ => b >>> 120 = 0xff#128
  | invalid => false

/-- The whole value is compared, the zone included. -/
def isUnspecified (a : Addr) : Bool := a = v4 0 ∨ a = v6 0 []

theorem isValid_unmap (a : Addr) : a.unmap.isValid = a.isValid := by
  cases a with
  | invalid => rfl
  | v4 b => rfl
  | v6 b z =>
    by_cases h : (v6 b z).is4In6 = true <;> simp [unmap, h, isValid]

/-- Unmapping leaves no mapped address behind. -/
theorem unmap_not_mapped (a : Addr) : a.unmap.is4In6 = false := by
  cases a with
  | invalid => rfl
  | v4 b => rfl
  | v6 b z =>
    by_cases h : (v6 b z).is4In6 = true
    · simp only [unmap, h, ↓reduceIte]
      rfl
    · simp only [unmap, h]
      simpa using h

@[simp] theorem unmap_unmap (a : Addr) : a.unmap.unmap = a.unmap := by
  have h := unmap_not_mapped a
  cases hu : a.unmap with
  | invalid => rfl
  | v4 b => rfl
  | v6 b z =>
    rw [hu] at h
    simp only [unmap, h]
    rfl

end Addr

/-! ## Bytes and bits of an address -/

section Bits

variable {w : Nat}

/-- The first `n` bytes of a big-endian number. -/
def bytesOf (n : Nat) (x : BitVec w) : List UInt8 :=
  (List.range n).map (fun k => ⟨x.extractLsb' (w - 8 * (k + 1)) 8⟩)

/-- Bit `i` as the tries read it: `(raw[i/8] >> uint(7-(i%8))) & 1`. -/
def bitAt (raw : List UInt8) (i : Nat) : Bool :=
  (raw.getD (i / 8) 0 >>> UInt8.ofNat (7 - i % 8)) &&& 1 = 1

theorem and_one_eq (y : BitVec 8) : (y &&& 1#8 = 1#8) ↔ y.getLsbD 0 = true := by
  rw [BitVec.and_one_eq_setWidth_ofBool_getLsbD]
  cases y.getLsbD 0 <;> decide

theorem bitAt_byte (x : BitVec 8) (j : Nat) (hj : j < 8) :
    decide (((⟨x⟩ : UInt8) >>> UInt8.ofNat (7 - j)) &&& 1 = 1) = x.getMsbD j := by
  have hshift : ∀ j < 8, (UInt8.ofNat (7 - j)).toBitVec % 8 = BitVec.ofNat 8 (7 - j) := by decide
  have heq : (((⟨x⟩ : UInt8) >>> UInt8.ofNat (7 - j)) &&& 1 = 1) ↔ x.getLsbD (7 - j) = true := by
    have h7 : (7 - j) % 2 ^ 8 = 7 - j := Nat.mod_eq_of_lt (by omega)
    rw [← UInt8.toBitVec_inj, UInt8.toBitVec_and, UInt8.toBitVec_shiftRight]
    change (x >>> ((UInt8.ofNat (7 - j)).toBitVec % 8)) &&& 1#8 = 1#8 ↔ _
    rw [hshift j hj, and_one_eq, BitVec.ushiftRight_eq', BitVec.toNat_ofNat, h7,
      BitVec.getLsbD_ushiftRight, Nat.add_zero]
  have hmsb : x.getMsbD j = x.getLsbD (7 - j) := by
    simp [BitVec.getMsbD_eq_getLsbD, hj]
  rw [hmsb, Bool.eq_iff_iff, decide_eq_true_eq]
  exact heq
/-- The trie's bit `i` is bit `i` of the number, most significant first. -/
theorem bitAt_bytesOf {n i : Nat} (x : BitVec w) (hw : w = 8 * n) (hi : i < w) :
    bitAt (bytesOf n x) i = x.getMsbD i := by
  have hdiv : i / 8 < n := by omega
  have hmod : i % 8 < 8 := Nat.mod_lt _ (by decide)
  have hget : (bytesOf n x).getD (i / 8) 0 = ⟨x.extractLsb' (w - 8 * (i / 8 + 1)) 8⟩ := by
    simp [bytesOf, hdiv]
  rw [bitAt, hget, bitAt_byte _ _ hmod, BitVec.getMsbD_extractLsb']
  have h1 : w - 8 * (i / 8 + 1) + 8 - i % 8 ≤ w := by omega
  have h2 : w - (w - 8 * (i / 8 + 1) + 8 - i % 8) = i := by omega
  simp [hmod, h1, h2]

/-- The first `n` bits of a number, most significant first. -/
def leadingBits (n : Nat) (x : BitVec w) : List Bool := (List.range n).map x.getMsbD

@[simp] theorem length_leadingBits (n : Nat) (x : BitVec w) : (leadingBits n x).length = n := by
  simp [leadingBits]

theorem take_leadingBits {m n : Nat} (h : m ≤ n) (x : BitVec w) :
    (leadingBits n x).take m = leadingBits m x := by
  simp [leadingBits, ← List.map_take, List.take_range, Nat.min_eq_left h]

theorem leadingBits_eq {n : Nat} {x y : BitVec w} :
    leadingBits n x = leadingBits n y ↔ ∀ i < n, x.getMsbD i = y.getMsbD i := by
  simp [leadingBits, List.map_inj_left]

/-- Numbers with equal leading bits agree after the rest is shifted out. -/
theorem shift_eq_iff {n : Nat} (hn : n ≤ w) {x y : BitVec w} :
    x >>> (w - n) = y >>> (w - n) ↔ leadingBits n x = leadingBits n y := by
  rw [leadingBits_eq]
  constructor
  · intro h i hi
    have hb := congrArg (fun z => z.getMsbD (i + (w - n))) h
    simp only [BitVec.getMsbD_ushiftRight] at hb
    have h1 : i + (w - n) < w := by omega
    have h2 : ¬(i + (w - n) < w - n) := by omega
    have h3 : i + (w - n) - (w - n) = i := by omega
    simpa [h1, h2, h3] using hb
  · intro h
    apply BitVec.eq_of_getMsbD_eq
    intro i hi
    rw [BitVec.getMsbD_ushiftRight, BitVec.getMsbD_ushiftRight]
    by_cases hlt : i < w - n
    · simp [hlt]
    · have hb := h (i - (w - n)) (by omega)
      rw [hb]

/-- `mask6`: the top `n` bits set. -/
def maskTop (n : Nat) : BitVec w := ~~~(BitVec.allOnes w >>> n)

theorem getMsbD_maskTop (n i : Nat) (hi : i < w) :
    (maskTop n : BitVec w).getMsbD i = decide (i < n) := by
  rw [maskTop, BitVec.getMsbD_not, BitVec.getMsbD_ushiftRight, BitVec.getMsbD_allOnes]
  by_cases h : i < n
  · simp [h, hi]
  · have : i - n < w := by omega
    simp [h, hi, this]

theorem leadingBits_masked {m n : Nat} (h : m ≤ n) (x : BitVec w) (hm : m ≤ w) :
    leadingBits m (x &&& maskTop n) = leadingBits m x := by
  rw [leadingBits_eq]
  intro i hi
  rw [BitVec.getMsbD_and, getMsbD_maskTop _ _ (by omega)]
  have : i < n := by omega
  simp [this]

/-- Two masked numbers are equal when their leading bits are. -/
theorem masked_eq {n : Nat} {x y : BitVec w} (h : leadingBits n x = leadingBits n y) :
    x &&& maskTop n = y &&& maskTop n := by
  apply BitVec.eq_of_getMsbD_eq
  intro i hi
  rw [BitVec.getMsbD_and, BitVec.getMsbD_and, getMsbD_maskTop _ _ hi]
  by_cases hlt : i < n
  · rw [leadingBits_eq.mp h i hlt]
  · simp [hlt]

end Bits

/-! ## Prefixes -/

theorem Addr.withoutZone_withoutZone (a : Addr) : a.withoutZone.withoutZone = a.withoutZone := by
  cases a <;> rfl

theorem Addr.withoutZone_fits (a : Addr) :
    a.withoutZone.isValid = a.isValid ∧ a.withoutZone.bitLen = a.bitLen := by
  cases a <;> exact ⟨rfl, rfl⟩

/-- `netip.Prefix`; `bitsPlusOne` is 0 for an invalid one. -/
structure Prefix where
  ip : Addr
  bitsPlusOne : Nat
  fits : 0 < bitsPlusOne → ip.isValid = true ∧ bitsPlusOne ≤ ip.bitLen + 1
  zoneless : ip.withoutZone = ip
  deriving DecidableEq

def Prefix.zero : Prefix := ⟨.invalid, 0, by simp, rfl⟩

def Prefix.isValid (p : Prefix) : Bool := 0 < p.bitsPlusOne

/-- `Prefix.Bits`, -1 for an invalid prefix. -/
def Prefix.bits (p : Prefix) : Int := p.bitsPlusOne - 1

/-- `netip.PrefixFrom`. -/
def prefixFrom (ip : Addr) (bits : Int) : Prefix :=
  if h : ip.isValid = true ∧ 0 ≤ bits ∧ bits ≤ ip.bitLen then
    ⟨ip.withoutZone, bits.toNat + 1, fun _ => by
      rw [ip.withoutZone_fits.1, ip.withoutZone_fits.2]
      exact ⟨h.1, by omega⟩, ip.withoutZone_withoutZone⟩
  else ⟨ip.withoutZone, 0, by simp, ip.withoutZone_withoutZone⟩

/-- `Addr.Prefix`: keep the top `b` bits. -/
def Addr.toPrefix (ip : Addr) (b : Int) : Option Prefix :=
  if b < 0 then none
  else match ip with
    | invalid => some Prefix.zero
    | v4 x => if 32 < b then none else some (prefixFrom (v4 (x &&& maskTop b.toNat)) b)
    | v6 x z => if 128 < b then none else some (prefixFrom (v6 (x &&& maskTop b.toNat) z) b)

def Prefix.masked (p : Prefix) : Prefix := (p.ip.toPrefix p.bits).getD .zero

/-- The prefix contains the address, judged on the address bits alone. -/
def Prefix.covers (p : Prefix) (a : Addr) : Prop :=
  p.isValid = true ∧
    match p.ip, a with
    | .v4 x, .v4 y => x >>> (32 - p.bits.toNat) = y >>> (32 - p.bits.toNat)
    | .v6 x _, .v6 y _ => x >>> (128 - p.bits.toNat) = y >>> (128 - p.bits.toNat)
    | _, _ => False

/-- The bits of the family's numbers that a prefix or an address fixes. -/
def Prefix.path (six : Bool) (p : Prefix) : Option (List Bool) :=
  if p.isValid then
    match six, p.ip with
    | false, .v4 x => some (leadingBits p.bits.toNat x)
    | true, .v6 x _ => some (leadingBits p.bits.toNat x)
    | _, _ => none
  else none

def Addr.path (six : Bool) (a : Addr) : Option (List Bool) :=
  match six, a with
  | false, .v4 x => some (leadingBits 32 x)
  | true, .v6 x _ => some (leadingBits 128 x)
  | _, _ => none

theorem Prefix.bits_le {p : Prefix} (h : p.isValid = true) : p.bits.toNat ≤ p.ip.bitLen := by
  simp only [Prefix.isValid, decide_eq_true_eq] at h
  have hle := (p.fits h).2
  simp only [Prefix.bits]
  omega

/-- Containment is that the prefix's path begins the address's. -/
theorem Prefix.covers_iff {p : Prefix} {a : Addr} :
    p.covers a ↔ ∃ six ks as, p.path six = some ks ∧ a.path six = some as ∧
      ks = as.take p.bits.toNat := by
  by_cases hv : p.isValid = true
  · have hle := p.bits_le hv
    have hcovers : ∀ {w : Nat} (x y : BitVec w), p.bits.toNat ≤ w →
        (x >>> (w - p.bits.toNat) = y >>> (w - p.bits.toNat) ↔
          leadingBits p.bits.toNat x = (leadingBits w y).take p.bits.toNat) := by
      intro w x y hw
      rw [shift_eq_iff hw, take_leadingBits hw]
    cases hip : p.ip with
    | invalid =>
      have := (p.fits (by simpa [Prefix.isValid] using hv)).1
      rw [hip] at this
      cases this
    | v4 x =>
      rw [hip] at hle
      cases a with
      | v4 y => simpa [Prefix.covers, Prefix.path, Addr.path, hv, hip] using hcovers x y hle
      | invalid => simp [Prefix.covers, Addr.path, hip]
      | v6 y z => simp [Prefix.covers, Prefix.path, Addr.path, hip]
    | v6 x z =>
      rw [hip] at hle
      cases a with
      | v6 y z' => simpa [Prefix.covers, Prefix.path, Addr.path, hv, hip] using hcovers x y hle
      | invalid => simp [Prefix.covers, Addr.path, hip]
      | v4 y => simp [Prefix.covers, Prefix.path, Addr.path, hip]
  · simp [Prefix.covers, Prefix.path, hv]

theorem Prefix.length_path {p : Prefix} {six : Bool} {ks : List Bool} (h : p.path six = some ks) :
    ks.length = p.bits.toNat := by
  unfold Prefix.path at h
  (repeat' split at h) <;> first | (cases h; exact length_leadingBits _ _) | cases h

theorem Prefix.isValid_of_path {p : Prefix} {six : Bool} {ks : List Bool}
    (h : p.path six = some ks) : p.isValid = true := by
  by_contra hv
  simp [Prefix.path, hv] at h

theorem Prefix.path_v4 {p : Prefix} {ks : List Bool} (h : p.path false = some ks) :
    ∃ x, p.ip = .v4 x ∧ leadingBits p.bits.toNat x = ks := by
  have hv := Prefix.isValid_of_path h
  simp only [Prefix.path, hv, ↓reduceIte] at h
  cases hip : p.ip with
  | v4 x =>
    rw [hip] at h
    cases h
    exact ⟨x, rfl, rfl⟩
  | invalid =>
    rw [hip] at h
    cases h
  | v6 x z =>
    rw [hip] at h
    cases h

theorem Prefix.path_v6 {p : Prefix} {ks : List Bool} (h : p.path true = some ks) :
    ∃ x z, p.ip = .v6 x z ∧ leadingBits p.bits.toNat x = ks := by
  have hv := Prefix.isValid_of_path h
  simp only [Prefix.path, hv, ↓reduceIte] at h
  cases hip : p.ip with
  | v6 x z =>
    rw [hip] at h
    cases h
    exact ⟨x, z, rfl, rfl⟩
  | invalid =>
    rw [hip] at h
    cases h
  | v4 x =>
    rw [hip] at h
    cases h

/-! ### Masking -/

theorem Prefix.ext {p q : Prefix} (hip : p.ip = q.ip) (hb : p.bitsPlusOne = q.bitsPlusOne) :
    p = q := by
  obtain ⟨i, b, _, _⟩ := p
  obtain ⟨i', b', _, _⟩ := q
  cases hip
  cases hb
  rfl

theorem prefixFrom_eq {ip : Addr} {n : Nat} (hv : ip.isValid = true) (hn : n ≤ ip.bitLen) :
    (prefixFrom ip n).ip = ip.withoutZone ∧ (prefixFrom ip n).bitsPlusOne = n + 1 := by
  have h : ip.isValid = true ∧ (0 : Int) ≤ n ∧ (n : Int) ≤ ip.bitLen := ⟨hv, by omega, by omega⟩
  simp [prefixFrom, h]

theorem Prefix.masked_v4 {p : Prefix} {x : BitVec 32} (hv : p.isValid = true) (hip : p.ip = .v4 x) :
    p.masked.ip = .v4 (x &&& maskTop p.bits.toNat) ∧ p.masked.bitsPlusOne = p.bitsPlusOne := by
  have hle := p.bits_le hv
  rw [hip] at hle
  simp only [Addr.bitLen] at hle
  have hpos : 0 < p.bitsPlusOne := by simpa [Prefix.isValid] using hv
  obtain ⟨n, hn⟩ : ∃ n : Nat, p.bits = n := ⟨p.bits.toNat, by simp only [Prefix.bits]; omega⟩
  have h0 : ¬p.bits < 0 := by omega
  have h32 : ¬(32 : Int) < p.bits := by omega
  have hp := @prefixFrom_eq (.v4 (x &&& maskTop p.bits.toNat)) n rfl (by
    simp only [Addr.bitLen]
    omega)
  have hm : p.masked = prefixFrom (.v4 (x &&& maskTop p.bits.toNat)) n := by
    simp only [Prefix.masked, Addr.toPrefix, hip, h0, h32, ↓reduceIte, Option.getD_some]
    rw [← hn]
  rw [hm]
  refine ⟨hp.1, hp.2.trans ?_⟩
  simp only [Prefix.bits] at hn
  omega

theorem Prefix.masked_v6 {p : Prefix} {x : BitVec 128} {z : Bytes} (hv : p.isValid = true)
    (hip : p.ip = .v6 x z) :
    p.masked.ip = .v6 (x &&& maskTop p.bits.toNat) [] ∧ p.masked.bitsPlusOne = p.bitsPlusOne := by
  have hle := p.bits_le hv
  rw [hip] at hle
  simp only [Addr.bitLen] at hle
  have hpos : 0 < p.bitsPlusOne := by simpa [Prefix.isValid] using hv
  obtain ⟨n, hn⟩ : ∃ n : Nat, p.bits = n := ⟨p.bits.toNat, by simp only [Prefix.bits]; omega⟩
  have h0 : ¬p.bits < 0 := by omega
  have h128 : ¬(128 : Int) < p.bits := by omega
  have hp := @prefixFrom_eq (.v6 (x &&& maskTop p.bits.toNat) z) n rfl (by
    simp only [Addr.bitLen]
    omega)
  have hm : p.masked = prefixFrom (.v6 (x &&& maskTop p.bits.toNat) z) n := by
    simp only [Prefix.masked, Addr.toPrefix, hip, h0, h128, ↓reduceIte, Option.getD_some]
    rw [← hn]
  rw [hm]
  refine ⟨hp.1, hp.2.trans ?_⟩
  simp only [Prefix.bits] at hn
  omega

theorem Prefix.masked_invalid {p : Prefix} (hv : p.isValid = false) : p.masked = .zero := by
  have h0 : p.bits < 0 := by
    simp only [Prefix.isValid, decide_eq_false_iff_not] at hv
    simp only [Prefix.bits]
    omega
  simp [Prefix.masked, Addr.toPrefix, h0]

@[simp] theorem Prefix.masked_masked (p : Prefix) : p.masked.masked = p.masked := by
  by_cases hv : p.isValid = true
  · have hpos : 0 < p.bitsPlusOne := by simpa [Prefix.isValid] using hv
    cases hip : p.ip with
    | invalid =>
      have := (p.fits hpos).1
      rw [hip] at this
      cases this
    | v4 x =>
      obtain ⟨hm, hb⟩ := Prefix.masked_v4 hv hip
      have hbits : p.masked.bits = p.bits := by simp only [Prefix.bits, hb]
      have hv' : p.masked.isValid = true := by simpa [Prefix.isValid, hb] using hv
      obtain ⟨hm', hb'⟩ := Prefix.masked_v4 hv' hm
      refine Prefix.ext ?_ hb'
      rw [hm', hm, hbits, BitVec.and_assoc, BitVec.and_self]
    | v6 x z =>
      obtain ⟨hm, hb⟩ := Prefix.masked_v6 hv hip
      have hbits : p.masked.bits = p.bits := by simp only [Prefix.bits, hb]
      have hv' : p.masked.isValid = true := by simpa [Prefix.isValid, hb] using hv
      obtain ⟨hm', hb'⟩ := Prefix.masked_v6 hv' hm
      refine Prefix.ext ?_ hb'
      rw [hm', hm, hbits, BitVec.and_assoc, BitVec.and_self]
  · have hz : p.masked = .zero := Prefix.masked_invalid (by simpa using hv)
    rw [hz]
    rfl

end NetIP

end SplitProxy
