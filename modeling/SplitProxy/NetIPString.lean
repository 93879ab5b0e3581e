import Mathlib.Algebra.GroupWithZero.Nat
import SplitProxy.NetIPParse

/-!
# Numerals and address texts

`strconv.Itoa` and `strconv.Atoi`, and the text of an address as
`netip.Addr.String` and `net.IP.String` give it.
-/
namespace SplitProxy.NetIP

open GoText

/-! ## Numerals -/

/-- The digits of a number, the most significant first. -/
def digitsFrom (base : Nat) : Nat → Nat → List Nat
  | 0, _ => []
  | fuel + 1, n => if n < base then [n] else digitsFrom base fuel (n / base) ++ [n % base]

def digitByte (d : Nat) : UInt8 := UInt8.ofNat (if d < 10 then 0x30 + d else 0x57 + d)

/-- A number in base 16 or less without leading zeros. -/
def numeral (base n : Nat) : Bytes := (digitsFrom base (n + 1) n).map digitByte

/-- `strconv.Itoa` of a number that is not negative. -/
def itoa (n : Nat) : Bytes := numeral 10 n

/-- The number a text of decimal digits stands for. -/
def decimal (s : Bytes) : Option Nat :=
  if s ≠ [] ∧ s.all isDigit then some (ofDigits 10 (s.map fun c => c.toNat - 0x30)) else none

/-- `strconv.Atoi` on a 64-bit platform. -/
def atoi (s : Bytes) : Option Int :=
  match s with
  | [] => none
  | c :: rest =>
    if c = 0x2D then
      (decimal rest).bind (fun n => if n ≤ 2 ^ 63 then some (-(n : Int)) else none)
    else
      (decimal (if c = 0x2B then rest else s)).bind
        (fun n => if n < 2 ^ 63 then some (n : Int) else none)

theorem digitsFrom_lt {base : Nat} (hb : 0 < base) (fuel n : Nat) :
    ∀ d ∈ digitsFrom base fuel n, d < base := by
  induction fuel generalizing n with
  | zero => exact fun d hd => absurd hd List.not_mem_nil
  | succ fuel ih =>
    intro d hd
    rw [digitsFrom] at hd
    by_cases hn : n < base
    · rw [if_pos hn, List.mem_singleton] at hd
      omega
    · rw [if_neg hn] at hd
      rcases List.mem_append.mp hd with hd | hd
      · exact ih _ d hd
      · rw [List.mem_singleton.mp hd]
        exact Nat.mod_lt _ hb

theorem length_digitsFrom {base : Nat} {m : Nat} (hm : 0 < m) (fuel : Nat) {n : Nat}
    (hn : n < base ^ m) : (digitsFrom base fuel n).length ≤ m := by
  induction fuel generalizing n m with
  | zero => exact Nat.zero_le _
  | succ fuel ih =>
    rw [digitsFrom]
    by_cases h : n < base
    · rw [if_pos h]
      exact hm
    · rw [if_neg h, List.length_append, List.length_singleton]
      obtain ⟨m, rfl⟩ : ∃ k, m = k + 1 := ⟨m - 1, by omega⟩
      have hm' : 0 < m := by
        by_contra h0
        have hz : m = 0 := by omega
        rw [hz, Nat.zero_add, Nat.pow_one] at hn
        exact h hn
      have hdiv : n / base < base ^ m := by
        apply Nat.div_lt_of_lt_mul
        rw [Nat.mul_comm, ← Nat.pow_succ]
        exact hn
      have hlen := ih hm' hdiv
      omega

theorem length_numeral {base : Nat} {m n : Nat} (hm : 0 < m) (hn : n < base ^ m) :
    (numeral base n).length ≤ m := by
  rw [numeral, List.length_map]
  exact length_digitsFrom hm (n + 1) hn

/-! ## Addresses -/

/-- The `i`-th byte of an address. -/
def byteAt {w : Nat} (x : BitVec w) (i : Nat) : Nat := x.toNat / 0x100 ^ (w / 8 - 1 - i) % 0x100

/-- `ip.v6u16(i)`. -/
def hextet (x : BitVec 128) (i : Nat) : Nat := x.toNat / 0x10000 ^ (7 - i) % 0x10000

def hextets (x : BitVec 128) : List Nat := (List.range 8).map (hextet x)

/-- Texts one after the other with a byte between them. -/
def joined (sep : UInt8) : List Bytes → Bytes
  | [] => []
  | [t] => t
  | t :: ts => t ++ sep :: joined sep ts

def ipv4String (x : BitVec 32) : Bytes :=
  joined dot ((List.range 4).map fun i => itoa (byteAt x i))

def leadingZeros : List Nat → Nat
  | 0 :: gs => leadingZeros gs + 1
  | _ => 0

/-- The first of the longest runs of two zeros or more: where it starts, how long it is. -/
def zeroRun : Nat → List Nat → Nat × Nat → Nat × Nat
  | _, [], best => best
  | i, g :: gs, best =>
    let l := leadingZeros (g :: gs)
    zeroRun (i + 1) gs (if 2 ≤ l ∧ best.2 < l then (i, l) else best)

def hexJoined (gs : List Nat) : Bytes := joined colon (gs.map (numeral 16))

/-- `appendTo6` without the zone. -/
def groupsString (gs : List Nat) : Bytes :=
  let run := zeroRun 0 gs (0, 0)
  if run.2 = 0 then hexJoined gs
  else hexJoined (gs.take run.1) ++ [colon, colon] ++ hexJoined (gs.drop (run.1 + run.2))

def ipv6String (x : BitVec 128) : Bytes := groupsString (hextets x)

/-- `::ffff:` -/
def mappedMark : Bytes := [0x3A, 0x3A, 0x66, 0x66, 0x66, 0x66, 0x3A]

/-- `invalid IP` -/
def invalidText : Bytes := [0x69, 0x6E, 0x76, 0x61, 0x6C, 0x69, 0x64, 0x20, 0x49, 0x50]

/-- `netip.Addr.String`. -/
def Addr.string : Addr → Bytes
  | .invalid => invalidText
  | .v4 x => ipv4String x
  | .v6 x z =>
    withZone (if (Addr.v6 x z).is4In6 then mappedMark ++ ipv4String (x.setWidth 32) else ipv6String x) z

/-- `net.IP.String` of four or sixteen bytes: a mapped address is written as the
IPv4 address it stands for. -/
def netIPString (a : Addr) : Bytes := a.unmap.string

example : ipv6String 0x20010db8000000000000000000000001#128 =
    [0x32, 0x30, 0x30, 0x31, 0x3A, 0x64, 0x62, 0x38, 0x3A, 0x3A, 0x31] := by decide

/-! ## Lengths -/

theorem length_joined {sep : UInt8} {n : Nat} {ts : List Bytes} (h : ∀ t ∈ ts, t.length ≤ n) :
    (joined sep ts).length ≤ ts.length * (n + 1) - 1 := by
  induction ts with
  | nil => exact Nat.zero_le _
  | cons t ts ih =>
    have ht := h t List.mem_cons_self
    have hts := ih fun u hu => h u (List.mem_cons_of_mem _ hu)
    cases ts with
    | nil =>
      simp only [joined, List.length_cons, List.length_nil]
      omega
    | cons u us =>
      have hmul : (t :: u :: us).length * (n + 1) = (u :: us).length * (n + 1) + (n + 1) := by
        rw [List.length_cons, Nat.succ_mul]
      have hpos : 1 ≤ (u :: us).length * (n + 1) := by
        rw [List.length_cons, Nat.succ_mul]
        omega
      simp only [joined, List.length_append, List.length_cons] at hts ⊢
      simp only [List.length_cons] at hmul hpos
      omega

theorem length_ipv4String (x : BitVec 32) : (ipv4String x).length ≤ 15 := by
  have h := @length_joined dot 3 ((List.range 4).map fun i => itoa (byteAt x i)) ?_
  · simpa [ipv4String] using h
  · intro t ht
    obtain ⟨i, -, rfl⟩ := List.mem_map.mp ht
    have hlt : byteAt x i < 10 ^ 3 := by
      have := Nat.mod_lt (x.toNat / 0x100 ^ (32 / 8 - 1 - i)) (show 0 < 0x100 by decide)
      unfold byteAt
      omega
    exact length_numeral (by decide) hlt

theorem length_hexJoined {gs : List Nat} (h : ∀ g ∈ gs, g < 0x10000) :
    (hexJoined gs).length ≤ gs.length * 5 - 1 := by
  have hl := @length_joined colon 4 (gs.map (numeral 16)) ?_
  · simpa [hexJoined] using hl
  · intro t ht
    obtain ⟨g, hg, rfl⟩ := List.mem_map.mp ht
    exact length_numeral (by decide) (h g hg)

theorem hextet_lt (x : BitVec 128) : ∀ g ∈ hextets x, g < 0x10000 := by
  intro g hg
  obtain ⟨i, -, rfl⟩ := List.mem_map.mp hg
  exact Nat.mod_lt _ (by decide)

theorem leadingZeros_le (gs : List Nat) : leadingZeros gs ≤ gs.length := by
  induction gs with
  | nil => exact Nat.le_refl _
  | cons g gs ih =>
    cases g with
    | zero => exact Nat.succ_le_succ ih
    | succ g => exact Nat.zero_le _

/-- The run found lies inside the list and is long enough to be worth writing as `::`. -/
theorem zeroRun_spec {i n : Nat} {gs : List Nat} {best : Nat × Nat} (hn : i + gs.length = n)
    (hb : best.2 = 0 ∨ 2 ≤ best.2 ∧ best.1 + best.2 ≤ n) :
    (zeroRun i gs best).2 = 0 ∨
      2 ≤ (zeroRun i gs best).2 ∧ (zeroRun i gs best).1 + (zeroRun i gs best).2 ≤ n := by
  induction gs generalizing i best with
  | nil => exact hb
  | cons g gs ih =>
    have hle := leadingZeros_le (g :: gs)
    rw [List.length_cons] at hn hle
    rw [zeroRun]
    apply ih (by omega)
    by_cases h : 2 ≤ leadingZeros (g :: gs) ∧ best.2 < leadingZeros (g :: gs)
    · rw [if_pos h]
      exact Or.inr ⟨h.1, by dsimp only; omega⟩
    · rw [if_neg h]
      exact hb

theorem length_ipv6String (x : BitVec 128) : (ipv6String x).length ≤ 39 := by
  have hlen : (hextets x).length = 8 := by simp [hextets]
  have hlt := hextet_lt x
  unfold ipv6String groupsString
  by_cases hz : (zeroRun 0 (hextets x) (0, 0)).2 = 0
  · rw [if_pos hz]
    have h := length_hexJoined hlt
    omega
  · rw [if_neg hz]
    have hrun := @zeroRun_spec 0 8 (hextets x) (0, 0) (by omega) (Or.inl rfl)
    have h₁ := @length_hexJoined ((hextets x).take (zeroRun 0 (hextets x) (0, 0)).1)
      fun g hg => hlt g (List.mem_of_mem_take hg)
    have h₂ := @length_hexJoined
      ((hextets x).drop ((zeroRun 0 (hextets x) (0, 0)).1 + (zeroRun 0 (hextets x) (0, 0)).2))
      fun g hg => hlt g (List.mem_of_mem_drop hg)
    simp only [List.length_append, List.length_cons, List.length_nil, List.length_take,
      List.length_drop] at h₁ h₂ ⊢
    omega

/-- What a SOCKS5 client can have written for it fits 39 bytes. -/
theorem length_netIPString {a : Addr} (hv : a.isValid = true) (hz : a.withoutZone = a) :
    (netIPString a).length ≤ 39 := by
  cases a with
  | invalid => cases hv
  | v4 x =>
    have h := length_ipv4String x
    exact Nat.le_trans h (by decide)
  | v6 x z =>
    cases hz
    by_cases hm : (Addr.v6 x []).is4In6 = true
    · have hs : netIPString (.v6 x []) = ipv4String (x.setWidth 32) := by
        simp only [netIPString, Addr.unmap, hm, ↓reduceIte, Addr.string]
      have h := length_ipv4String (x.setWidth 32)
      rw [hs]
      omega
    · have hs : netIPString (.v6 x []) = ipv6String x := by
        rw [netIPString, Addr.unmap, if_neg hm]
        dsimp only [Addr.string]
        rw [if_neg hm, withZone, if_pos rfl]
      rw [hs]
      exact length_ipv6String x

end SplitProxy.NetIP
