import SplitProxy.AddressText
import SplitProxy.HTTPConnect
import SplitProxy.Socks5

/-!
# One grammar, two parsers

A TCP request and a UDP datagram carry an address in one form. The stream parser
takes it off a reader, the datagram parser computes offsets; both accept the same
texts, read the same host and port and leave the same rest.
-/
namespace SplitProxy.Socks5

open GoText NetIP HTTPConnect

/-- The bytes behind an address type, and the host they stand for. -/
inductive AddressField : UInt8 → Bytes → Bytes → Prop
  | ipv4 {addr : Bytes} : addr.length = 4 →
      AddressField 0x01 addr (netIPString (.v4 (BitVec.ofNat 32 (bigEndian addr))))
  | domain {name : Bytes} : name.length < 0x100 → AddressField 0x03 (lengthPrefixed name) name
  | ipv6 {addr : Bytes} : addr.length = 16 →
      AddressField 0x04 addr (netIPString (.v6 (BitVec.ofNat 128 (bigEndian addr)) []))

/-- ATYP ADDR PORT, and what follows. -/
def Addressed (t : Bytes) (atyp : UInt8) (host : Bytes) (port : Nat) (rest : Bytes) : Prop :=
  ∃ addr portField, t = atyp :: addr ++ portField ++ rest ∧ AddressField atyp addr host ∧
    portField.length = 2 ∧ bigEndian portField = port

variable {atyp : UInt8} {s t host rest : Bytes} {port : Nat}

/-! ## The parser of a stream -/

theorem readFull_iff {n : Nat} {x : Bytes} :
    readFull n s = some (x, rest) ↔ s = x ++ rest ∧ x.length = n := by
  refine ⟨readFull_some, ?_⟩
  rintro ⟨rfl, rfl⟩
  simp [readFull]

theorem readLengthPrefixed_iff {x : Bytes} :
    (readByte s).bind (fun r => readFull r.1.toNat r.2) = some (x, rest) ↔
      s = lengthPrefixed x ++ rest ∧ x.length < 0x100 := by
  refine ⟨readLengthPrefixed_some, ?_⟩
  rintro ⟨rfl, hx⟩
  refine readFull_iff.mpr ⟨rfl, ?_⟩
  rw [UInt8.toNat_ofNat', Nat.mod_eq_of_lt hx]

theorem readHost_iff : readHost atyp s = some (host, rest) ↔
    ∃ addr, s = addr ++ rest ∧ AddressField atyp addr host := by
  constructor
  · intro h
    unfold readHost at h
    split at h
    · rename_i hatyp
      obtain ⟨⟨addr, rest'⟩, hr, he⟩ := Option.map_eq_some_iff.mp h
      obtain ⟨hs, hlen⟩ := readFull_some hr
      cases he
      exact ⟨addr, hs, hatyp ▸ .ipv4 hlen⟩
    · split at h
      · rename_i hatyp
        obtain ⟨hs, hlen⟩ := readLengthPrefixed_some h
        exact ⟨lengthPrefixed host, hs, hatyp ▸ .domain hlen⟩
      · split at h
        · rename_i hatyp
          obtain ⟨⟨addr, rest'⟩, hr, he⟩ := Option.map_eq_some_iff.mp h
          obtain ⟨hs, hlen⟩ := readFull_some hr
          cases he
          exact ⟨addr, hs, hatyp ▸ .ipv6 hlen⟩
        · cases h
  · rintro ⟨addr, rfl, hfield⟩
    cases hfield with
    | ipv4 hlen =>
      rw [readHost, if_pos rfl, readFull_iff.mpr ⟨rfl, hlen⟩]
      rfl
    | domain hlen =>
      rw [readHost, if_neg (by decide), if_pos rfl]
      exact readLengthPrefixed_iff.mpr ⟨rfl, hlen⟩
    | ipv6 hlen =>
      rw [readHost, if_neg (by decide), if_neg (by decide), if_pos rfl, readFull_iff.mpr ⟨rfl, hlen⟩]
      rfl

/-- The stream parser accepts the grammar and stops behind it. -/
theorem readSOCKS5Request_iff {c : UInt8} {req : SOCKS5Request} :
    readSOCKS5Request (0x05 :: c :: 0x00 :: t) = some (req, rest) ↔
      req.cmd = c ∧ Addressed t req.atyp req.host req.port rest := by
  obtain ⟨cmd, atyp, host, port⟩ := req
  cases t with
  | nil =>
    constructor
    · exact fun h => nomatch h
    · rintro ⟨-, addr, portField, ht, -⟩
      cases ht
  | cons a t =>
    have hread : readSOCKS5Request (0x05 :: c :: 0x00 :: a :: t) =
        (readHost a t).bind fun r => (readFull 2 r.2).map fun r' =>
          (⟨c, a, r.1, bigEndian r'.1⟩, r'.2) := by
      cases hr : readHost a t with
      | none => simp [readSOCKS5Request, hr]
      | some r => simp [readSOCKS5Request, hr]
    simp only [hread, Option.bind_eq_some_iff, Option.map_eq_some_iff, Prod.exists, readHost_iff,
      readFull_iff]
    constructor
    · rintro ⟨h, s, ⟨addr, rfl, hfield⟩, x, r, ⟨rfl, hx⟩, he⟩
      cases he
      exact ⟨rfl, addr, x, by simp, hfield, hx, rfl⟩
    · rintro ⟨rfl, addr, x, ht, hfield, hx, rfl⟩
      simp only [List.cons_append, List.append_assoc, List.cons.injEq] at ht
      obtain ⟨rfl, rfl⟩ := ht
      exact ⟨host, x ++ rest, ⟨addr, rfl, hfield⟩, x, rest, ⟨rfl, hx⟩, rfl⟩

/-! ## The parser of a datagram -/

theorem slice_append (x s : Bytes) (i j : Nat) :
    slice (x ++ s) (x.length + i) (x.length + j) = slice s i j := by
  rw [slice, slice, List.take_length_add_append, List.drop_length_add_append]

theorem slice_zero (s : Bytes) (n : Nat) : slice s 0 n = s.take n := rfl

/-- Behind the four bytes of its head, the datagram is read like a stream. -/
theorem udpHost_eq {head : Bytes} (hlen : head.length = 4) (atyp : UInt8) (t : Bytes) :
    udpHost (head ++ t) atyp =
      (readHost atyp t).map fun r => (r.1, 4 + (t.length - r.2.length)) := by
  have hslice : ∀ n, slice (head ++ t) 4 (4 + n) = t.take n := by
    intro n
    have hs := slice_append head t 0 n
    rwa [hlen, slice_zero] at hs
  unfold udpHost readHost
  split
  · by_cases h : 4 ≤ t.length
    · rw [if_neg (by rw [List.length_append]; omega), hslice 4, readFull, if_pos h]
      simp only [Option.map_some, List.length_drop]
      congr 2
      omega
    · rw [if_pos (by rw [List.length_append]; omega), readFull, if_neg h]
      rfl
  · split
    · have hget : (head ++ t)[4]? = t[0]? := by
        rw [List.getElem?_append_right (by omega), hlen]
      rw [hget]
      cases t with
      | nil => rfl
      | cons length t =>
        have hdomain : slice (head ++ length :: t) 5 (5 + length.toNat) = t.take length.toNat := by
          have hs := slice_append head (length :: t) 1 (1 + length.toNat)
          rw [hlen, ← Nat.add_assoc] at hs
          rw [hs, slice, Nat.add_comm, List.take_succ_cons, List.drop_succ_cons, List.drop_zero]
        simp only [List.getElem?_cons_zero, readByte, Option.bind_some]
        by_cases h : length.toNat ≤ t.length
        · rw [if_neg (by simp only [List.length_append, List.length_cons]; omega), hdomain, readFull,
            if_pos h]
          simp only [Option.map_some, List.length_drop, List.length_cons]
          congr 2
          omega
        · rw [if_pos (by simp only [List.length_append, List.length_cons]; omega), readFull, if_neg h]
          rfl
    · split
      · by_cases h : 16 ≤ t.length
        · rw [if_neg (by rw [List.length_append]; omega), hslice 16, readFull, if_pos h]
          simp only [Option.map_some, List.length_drop]
          congr 2
          omega
        · rw [if_pos (by rw [List.length_append]; omega), readFull, if_neg h]
          rfl
      · rfl

/-- The datagram parser returns what the stream parser returns, and the rest as payload. -/
theorem parseSOCKS5UDPRequest_eq (c : UInt8) (t : Bytes) :
    parseSOCKS5UDPRequest (0x00 :: 0x00 :: 0x00 :: t) =
      (readSOCKS5Request (0x05 :: c :: 0x00 :: t)).map fun r =>
        ⟨r.1.atyp, r.1.host, r.1.port, r.2⟩ := by
  cases t with
  | nil => rfl
  | cons atyp t =>
    have hu := @udpHost_eq [0x00, 0x00, 0x00, atyp] rfl atyp t
    simp only [List.cons_append, List.nil_append] at hu
    cases hr : readHost atyp t with
    | none => simp [parseSOCKS5UDPRequest, readSOCKS5Request, hu, hr]
    | some r =>
      obtain ⟨host, s⟩ := r
      obtain ⟨addr, rfl, -⟩ := readHost_iff.mp hr
      have hdata : 0x00 :: 0x00 :: 0x00 :: atyp :: (addr ++ s) =
          ([0x00, 0x00, 0x00, atyp] ++ addr) ++ s := rfl
      have hoffset : 4 + ((addr ++ s).length - s.length) = ([0x00, 0x00, 0x00, atyp] ++ addr).length := by
        simp only [List.length_append, List.length_cons, List.length_nil]
        omega
      rw [hr, Option.map_some, hoffset] at hu
      have hport := slice_append ([0x00, 0x00, 0x00, atyp] ++ addr) s 0 2
      rw [Nat.add_zero, slice_zero] at hport
      simp only [parseSOCKS5UDPRequest, readSOCKS5Request, ne_eq, not_true_eq_false, or_self,
        ↓reduceIte, hr, hu, readFull]
      rw [hdata, hport, List.drop_length_add_append]
      by_cases h : 2 ≤ s.length
      · rw [if_neg (by simp only [List.length_append]; omega), if_pos h]
        rfl
      · rw [if_pos (by simp only [List.length_append]; omega), if_neg h]
        rfl

/-! ## With every index checked -/

/-- The errors of `parseSOCKS5UDPRequest`. -/
inductive UDPError where
  | tooShort
  | invalidRSV
  | fragmentation
  | invalidIPv4
  | missingDomainLength
  | invalidDomain
  | invalidIPv6
  | unsupportedATYP (atyp : UInt8)
  | missingPort
  deriving DecidableEq, Repr

def UDPError.text : UDPError → Bytes
  | .tooShort => ascii "SOCKS5 UDP packet too short"
  | .invalidRSV => ascii "invalid SOCKS5 UDP RSV"
  | .fragmentation => ascii "UDP fragmentation is not supported"
  | .invalidIPv4 => ascii "invalid IPv4 address"
  | .missingDomainLength => ascii "missing domain length"
  | .invalidDomain => ascii "invalid domain"
  | .invalidIPv6 => ascii "invalid IPv6 address"
  | .unsupportedATYP atyp => ascii "unsupported ATYP: " ++ itoa atyp.toNat
  | .missingPort => ascii "missing port"

/-- How a parse ends without a packet: an error is returned, or an index is out of
the range of the data. -/
inductive Failure where
  | returned (e : UDPError)
  | outOfRange
  deriving DecidableEq, Repr

/-- `data[i]` -/
def checkedByte (data : Bytes) (i : Nat) : Except Failure UInt8 :=
  match data[i]? with
  | some b => .ok b
  | none => .error .outOfRange

/-- `data[i:j]`, within the length of the data. -/
def checkedSlice (data : Bytes) (i j : Nat) : Except Failure Bytes :=
  if i ≤ j ∧ j ≤ data.length then .ok (slice data i j) else .error .outOfRange

def checkedUDPHost (data : Bytes) (atyp : UInt8) : Except Failure (Bytes × Nat) :=
  if atyp = 0x01 then
    if data.length < 4 + 4 then .error (.returned .invalidIPv4)
    else do
      let buf ← checkedSlice data 4 (4 + 4)
      return (netIPString (.v4 (BitVec.ofNat 32 (bigEndian buf))), 4 + 4)
  else if atyp = 0x03 then
    if data.length < 4 + 1 then .error (.returned .missingDomainLength)
    else do
      let length ← checkedByte data 4
      if data.length < 5 + length.toNat then .error (.returned .invalidDomain)
      else do
        let buf ← checkedSlice data 5 (5 + length.toNat)
        return (buf, 5 + length.toNat)
  else if atyp = 0x04 then
    if data.length < 4 + 16 then .error (.returned .invalidIPv6)
    else do
      let buf ← checkedSlice data 4 (4 + 16)
      return (netIPString (.v6 (BitVec.ofNat 128 (bigEndian buf)) []), 4 + 16)
  else .error (.returned (.unsupportedATYP atyp))

/-- `parseSOCKS5UDPRequest` with its errors, and with each access to the data checked. -/
def checkedUDPRequest (data : Bytes) : Except Failure SOCKS5UDPPacket :=
  if data.length < 4 then .error (.returned .tooShort)
  else do
    let rsv₀ ← checkedByte data 0
    let rsv₁ ← checkedByte data 1
    if rsv₀ ≠ 0x00 ∨ rsv₁ ≠ 0x00 then .error (.returned .invalidRSV)
    else do
      let frag ← checkedByte data 2
      if frag ≠ 0x00 then .error (.returned .fragmentation)
      else do
        let atyp ← checkedByte data 3
        let (host, offset) ← checkedUDPHost data atyp
        if data.length < offset + 2 then .error (.returned .missingPort)
        else do
          let port ← checkedSlice data offset (offset + 2)
          let payload ← checkedSlice data (offset + 2) data.length
          return ⟨atyp, host, bigEndian port, payload⟩

/-- A result that is some value, or an error the function returns where it has none. -/
def Safe {α : Type} (result : Except Failure α) (value : Option α) : Prop :=
  match value with
  | some a => result = .ok a
  | none => ∃ e, result = .error (.returned e)

theorem ok_bind {α β : Type} (a : α) (f : α → Except Failure β) : (Except.ok a >>= f) = f a := rfl

theorem checkedSlice_ok {data : Bytes} {i j : Nat} (h : i ≤ j) (h' : j ≤ data.length) :
    checkedSlice data i j = .ok (slice data i j) := if_pos ⟨h, h'⟩

theorem checkedUDPHost_safe (data : Bytes) (atyp : UInt8) :
    Safe (checkedUDPHost data atyp) (udpHost data atyp) := by
  unfold checkedUDPHost udpHost
  split
  · by_cases h : data.length < 8
    · rw [if_pos h, if_pos h]
      exact ⟨_, rfl⟩
    · rw [if_neg h, if_neg h, checkedSlice_ok (by omega) (by omega)]
      rfl
  · split
    · by_cases h : data.length < 5
      · rw [if_pos h, List.getElem?_eq_none (by omega)]
        exact ⟨_, rfl⟩
      · rw [if_neg h, checkedByte, List.getElem?_eq_getElem (by omega)]
        simp only
        by_cases h' : data.length < 5 + data[4].toNat
        · rw [if_pos h']
          exact ⟨_, if_pos h'⟩
        · rw [if_neg h']
          refine (if_neg h').trans ?_
          rw [checkedSlice_ok (by omega) (by omega)]
          rfl
    · split
      · by_cases h : data.length < 20
        · rw [if_pos h, if_pos h]
          exact ⟨_, rfl⟩
        · rw [if_neg h, if_neg h, checkedSlice_ok (by omega) (by omega)]
          rfl
      · exact ⟨_, rfl⟩

/-- No access of the datagram parser is out of range. -/
theorem checkedUDPRequest_safe (data : Bytes) :
    Safe (checkedUDPRequest data) (parseSOCKS5UDPRequest data) := by
  match data with
  | [] => exact ⟨_, rfl⟩
  | [_] => exact ⟨_, rfl⟩
  | [_, _] => exact ⟨_, rfl⟩
  | [_, _, _] => exact ⟨_, rfl⟩
  | rsv₀ :: rsv₁ :: frag :: atyp :: t =>
    have hlen : ¬(rsv₀ :: rsv₁ :: frag :: atyp :: t).length < 4 := by
      simp only [List.length_cons]
      omega
    have hhost := checkedUDPHost_safe (rsv₀ :: rsv₁ :: frag :: atyp :: t) atyp
    simp only [checkedUDPRequest, parseSOCKS5UDPRequest, if_neg hlen, checkedByte, List.getElem?_cons_zero,
      List.getElem?_cons_succ, ok_bind]
    by_cases hrsv : rsv₀ ≠ 0x00 ∨ rsv₁ ≠ 0x00
    · rw [if_pos hrsv, if_pos hrsv]
      exact ⟨_, rfl⟩
    · by_cases hfrag : frag ≠ 0x00
      · rw [if_neg hrsv, if_neg hrsv, if_pos hfrag, if_pos hfrag]
        exact ⟨_, rfl⟩
      · rw [if_neg hrsv, if_neg hrsv, if_neg hfrag, if_neg hfrag]
        cases hu : udpHost (rsv₀ :: rsv₁ :: frag :: atyp :: t) atyp with
        | none =>
          rw [hu] at hhost
          obtain ⟨e, he⟩ := hhost
          rw [he]
          exact ⟨e, rfl⟩
        | some r =>
          obtain ⟨host, offset⟩ := r
          have hok : checkedUDPHost (rsv₀ :: rsv₁ :: frag :: atyp :: t) atyp = .ok (host, offset) := by
            rwa [hu] at hhost
          simp only [hok, ok_bind]
          generalize rsv₀ :: rsv₁ :: frag :: atyp :: t = data
          by_cases hport : data.length < offset + 2
          · rw [if_pos hport, if_pos hport]
            exact ⟨_, rfl⟩
          · rw [if_neg hport, if_neg hport, checkedSlice_ok (by omega) (by omega),
              checkedSlice_ok (by omega) (by omega), slice, slice, List.take_length]
            rfl

/-- Both parsers accept the texts of the grammar and no others, agree on host and port,
and leave as rest and payload what follows; the datagram parser stays within its data. -/
theorem request_parsers_agree (c : UInt8) (t : Bytes) :
    (∀ req rest, readSOCKS5Request (0x05 :: c :: 0x00 :: t) = some (req, rest) ↔
      req.cmd = c ∧ Addressed t req.atyp req.host req.port rest) ∧
    (parseSOCKS5UDPRequest (0x00 :: 0x00 :: 0x00 :: t) =
      (readSOCKS5Request (0x05 :: c :: 0x00 :: t)).map fun r =>
        ⟨r.1.atyp, r.1.host, r.1.port, r.2⟩) ∧
    Safe (checkedUDPRequest (0x00 :: 0x00 :: 0x00 :: t))
      (parseSOCKS5UDPRequest (0x00 :: 0x00 :: 0x00 :: t)) :=
  ⟨fun _ _ => readSOCKS5Request_iff, parseSOCKS5UDPRequest_eq c t, checkedUDPRequest_safe _⟩

end SplitProxy.Socks5
