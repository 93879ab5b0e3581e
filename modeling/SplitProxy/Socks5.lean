import SplitProxy.NetIPString

/-!
# SOCKS5 on the stream

What `handleSOCKS5`, `authenticateSOCKS5` and `readSOCKS5Request` take off the
reader. The state of the reader is the bytes it has left; a read that fails ends
the connection, so it has no rest.
-/
namespace SplitProxy.Socks5

open GoText NetIP

/-- `io.ReadFull` into `n` bytes. -/
def readFull (n : Nat) (s : Bytes) : Option (Bytes × Bytes) :=
  if n ≤ s.length then some (s.take n, s.drop n) else none

def readByte : Bytes → Option (UInt8 × Bytes)
  | [] => none
  | b :: s => some (b, s)

def containsByte (data : Bytes) (value : UInt8) : Bool := value ∈ data

structure SOCKS5Request where
  cmd : UInt8
  atyp : UInt8
  host : Bytes
  port : Nat
  deriving DecidableEq, Repr

/-- A big-endian number. -/
def bigEndian (s : Bytes) : Nat := ofDigits 0x100 (s.map UInt8.toNat)

/-- The address part of a request, as `switch req.ATYP` reads it. -/
def readHost (atyp : UInt8) (s : Bytes) : Option (Bytes × Bytes) :=
  if atyp = 0x01 then
    (readFull 4 s).map (fun r => (netIPString (.v4 (BitVec.ofNat 32 (bigEndian r.1))), r.2))
  else if atyp = 0x03 then
    (readByte s).bind (fun r => readFull r.1.toNat r.2)
  else if atyp = 0x04 then
    (readFull 16 s).map (fun r => (netIPString (.v6 (BitVec.ofNat 128 (bigEndian r.1)) []), r.2))
  else none

def readSOCKS5Request (s : Bytes) : Option (SOCKS5Request × Bytes) :=
  match s with
  | version :: cmd :: rsv :: atyp :: s =>
    if version ≠ 0x05 then none
    else if rsv ≠ 0x00 then none
    else
      match readHost atyp s with
      | none => none
      | some (host, s) => (readFull 2 s).map (fun r => (⟨cmd, atyp, host, bigEndian r.1⟩, r.2))
  | _ => none

/-- The greeting: the methods the client offers. -/
def readGreeting (s : Bytes) : Option (Bytes × Bytes) :=
  match s with
  | version :: nMethods :: s => if version ≠ 0x05 then none else readFull nMethods.toNat s
  | _ => none

/-- The username/password message of `authenticateSOCKS5`. -/
def readCredentials (s : Bytes) : Option (Bytes × Bytes × Bytes) :=
  match readByte s with
  | none => none
  | some (version, s) =>
    if version ≠ 0x01 then none
    else
      match (readByte s).bind (fun r => readFull r.1.toNat r.2) with
      | none => none
      | some (username, s) =>
        match (readByte s).bind (fun r => readFull r.1.toNat r.2) with
        | none => none
        | some (password, s) => some (username, password, s)

structure SOCKS5UDPPacket where
  atyp : UInt8
  host : Bytes
  port : Nat
  payload : Bytes
  deriving DecidableEq, Repr

/-- `data[i:j]` -/
def slice (data : Bytes) (i j : Nat) : Bytes := (data.take j).drop i

/-- The address part of a datagram and the offset behind it. -/
def udpHost (data : Bytes) (atyp : UInt8) : Option (Bytes × Nat) :=
  if atyp = 0x01 then
    if data.length < 8 then none
    else some (netIPString (.v4 (BitVec.ofNat 32 (bigEndian (slice data 4 8)))), 8)
  else if atyp = 0x03 then
    match data[4]? with
    | none => none
    | some length =>
      if data.length < 5 + length.toNat then none
      else some (slice data 5 (5 + length.toNat), 5 + length.toNat)
  else if atyp = 0x04 then
    if data.length < 20 then none
    else some (netIPString (.v6 (BitVec.ofNat 128 (bigEndian (slice data 4 20))) []), 20)
  else none

def parseSOCKS5UDPRequest (data : Bytes) : Option SOCKS5UDPPacket :=
  match data with
  | rsv₀ :: rsv₁ :: frag :: atyp :: _ =>
    if rsv₀ ≠ 0x00 ∨ rsv₁ ≠ 0x00 then none
    else if frag ≠ 0x00 then none
    else
      match udpHost data atyp with
      | none => none
      | some (host, offset) =>
        if data.length < offset + 2 then none
        else some ⟨atyp, host, bigEndian (slice data offset (offset + 2)), data.drop (offset + 2)⟩
  | _ => none

/-- The reply of `writeSOCKS5Success`. -/
def socks5Success : Bytes := [0x05, 0x00, 0x00, 0x01, 0, 0, 0, 0, 0, 0]

/-- The reply of `writeSOCKS5UDPAssociateSuccess`. -/
def udpAssociateSuccess (ip : BitVec 32) (port : Nat) : Bytes :=
  [0x05, 0x00, 0x00, 0x01] ++ bytesOf 4 ip ++ [UInt8.ofNat (port / 0x100), UInt8.ofNat port]

def commandNotSupported : Bytes := [0x05, 0x07, 0x00, 0x01, 0, 0, 0, 0, 0, 0]

/-! ## The grammar of what is read -/

/-- A text behind its length in one byte. -/
def lengthPrefixed (s : Bytes) : Bytes := UInt8.ofNat s.length :: s

def greeting (methods : Bytes) : Bytes := 0x05 :: lengthPrefixed methods

def subnegotiation (username password : Bytes) : Bytes :=
  0x01 :: (lengthPrefixed username ++ lengthPrefixed password)

theorem readFull_some {n : Nat} {s x rest : Bytes} (h : readFull n s = some (x, rest)) :
    s = x ++ rest ∧ x.length = n := by
  unfold readFull at h
  split at h
  · rename_i hn
    cases h
    exact ⟨(List.take_append_drop n s).symm, List.length_take_of_le hn⟩
  · cases h

theorem readLengthPrefixed_some {s x rest : Bytes}
    (h : (readByte s).bind (fun r => readFull r.1.toNat r.2) = some (x, rest)) :
    s = lengthPrefixed x ++ rest ∧ x.length < 0x100 := by
  cases s with
  | nil => cases h
  | cons b s =>
    obtain ⟨hs, hx⟩ := readFull_some h
    have hb : UInt8.ofNat x.length = b := by rw [hx, UInt8.ofNat_toNat]
    refine ⟨?_, hx ▸ b.toNat_lt⟩
    rw [lengthPrefixed, hb, List.cons_append, ← hs]

theorem readGreeting_some {s methods rest : Bytes} (h : readGreeting s = some (methods, rest)) :
    s = greeting methods ++ rest := by
  unfold readGreeting at h
  split at h
  · rename_i version nMethods s
    split at h
    · cases h
    · rename_i hv
      have hl := @readLengthPrefixed_some (nMethods :: s) methods rest h
      rw [greeting, List.cons_append, ← hl.1, Classical.not_not.mp hv]
  · cases h

theorem readCredentials_some {s username password rest : Bytes}
    (h : readCredentials s = some (username, password, rest)) :
    s = subnegotiation username password ++ rest ∧ username.length < 0x100 ∧
      password.length < 0x100 := by
  cases s with
  | nil => cases h
  | cons version s =>
    simp only [readCredentials, readByte] at h
    split at h
    · cases h
    · rename_i hv
      split at h
      · cases h
      · rename_i u s₁ hu
        split at h
        · cases h
        · rename_i p s₂ hp
          cases h
          obtain ⟨rfl, hlu⟩ := readLengthPrefixed_some hu
          obtain ⟨rfl, hlp⟩ := readLengthPrefixed_some hp
          refine ⟨?_, hlu, hlp⟩
          rw [subnegotiation, Classical.not_not.mp hv, List.cons_append, List.append_assoc]

/-- Every host a request carries fits the domain field. -/
theorem length_readHost {atyp : UInt8} {s host rest : Bytes}
    (h : readHost atyp s = some (host, rest)) : host.length ≤ 255 := by
  unfold readHost at h
  split at h
  · obtain ⟨r, -, he⟩ := Option.map_eq_some_iff.mp h
    cases he
    have hl := @length_netIPString (.v4 (BitVec.ofNat 32 (bigEndian r.1))) rfl rfl
    omega
  · split at h
    · have hl := (readLengthPrefixed_some h).2
      omega
    · split at h
      · obtain ⟨r, -, he⟩ := Option.map_eq_some_iff.mp h
        cases he
        have hl := @length_netIPString (.v6 (BitVec.ofNat 128 (bigEndian r.1)) []) rfl rfl
        omega
      · cases h

theorem ofDigits_pair_lt {ds : List Nat} (hl : ds.length ≤ 2) (h : ∀ d ∈ ds, d < 0x100) :
    ofDigits 0x100 ds < 0x10000 := by
  match ds, hl with
  | [], _ => decide
  | [a], _ =>
    have ha := h a (by simp)
    simp only [ofDigits, List.foldl_cons, List.foldl_nil]
    omega
  | [a, b], _ =>
    have ha := h a (by simp)
    have hb := h b (by simp)
    simp only [ofDigits, List.foldl_cons, List.foldl_nil]
    omega

/-- A port is two bytes of the datagram. -/
theorem port_lt {data : Bytes} {packet : SOCKS5UDPPacket}
    (h : parseSOCKS5UDPRequest data = some packet) : packet.port < 0x10000 := by
  have hport : ∀ offset, bigEndian (slice data offset (offset + 2)) < 0x10000 := by
    intro offset
    refine ofDigits_pair_lt ?_ fun d hd => ?_
    · simp only [slice, List.length_map, List.length_drop, List.length_take]
      omega
    · obtain ⟨b, -, rfl⟩ := List.mem_map.mp hd
      exact b.toNat_lt
  unfold parseSOCKS5UDPRequest at h
  split at h
  · split at h
    · cases h
    · split at h
      · cases h
      · split at h
        · cases h
        · split at h
          · cases h
          · cases h
            exact hport _
  · cases h

theorem readSOCKS5Request_bounds {s rest : Bytes} {req : SOCKS5Request}
    (h : readSOCKS5Request s = some (req, rest)) : req.port < 0x10000 ∧ req.host.length ≤ 255 := by
  unfold readSOCKS5Request at h
  split at h
  · split at h
    · cases h
    · split at h
      · cases h
      · split at h
        · cases h
        · rename_i host s' hhost
          obtain ⟨r, hr, he⟩ := Option.map_eq_some_iff.mp h
          cases he
          refine ⟨ofDigits_pair_lt ?_ fun d hd => ?_, length_readHost hhost⟩
          · have hl := (readFull_some hr).2
            rw [List.length_map]
            omega
          · obtain ⟨b, -, rfl⟩ := List.mem_map.mp hd
            exact b.toNat_lt
  · cases h

theorem length_slice_le (data : Bytes) (i j : Nat) : (slice data i j).length ≤ j - i := by
  simp only [slice, List.length_drop, List.length_take]
  omega

/-- Every host of a datagram fits the domain field, and the payload is a part of it. -/
theorem length_udpPacket {data : Bytes} {packet : SOCKS5UDPPacket}
    (h : parseSOCKS5UDPRequest data = some packet) :
    packet.host.length ≤ 255 ∧ packet.payload.length ≤ data.length := by
  have hhost : ∀ {atyp : UInt8} {host : Bytes} {offset : Nat},
      udpHost data atyp = some (host, offset) → host.length ≤ 255 := by
    intro atyp host offset hu
    unfold udpHost at hu
    split at hu
    · split at hu
      · cases hu
      · cases hu
        have hl := @length_netIPString (.v4 (BitVec.ofNat 32 (bigEndian (slice data 4 8)))) rfl rfl
        omega
    · split at hu
      · split at hu
        · cases hu
        · rename_i length _
          split at hu
          · cases hu
          · cases hu
            have hl := length_slice_le data 5 (5 + length.toNat)
            have hb := length.toNat_lt
            omega
      · split at hu
        · split at hu
          · cases hu
          · cases hu
            have hl := @length_netIPString
              (.v6 (BitVec.ofNat 128 (bigEndian (slice data 4 20))) []) rfl rfl
            omega
        · cases hu
  unfold parseSOCKS5UDPRequest at h
  split at h
  · split at h
    · cases h
    · split at h
      · cases h
      · split at h
        · cases h
        · rename_i host offset hu
          split at h
          · cases h
          · cases h
            refine ⟨hhost hu, ?_⟩
            rw [List.length_drop]
            omega
  · cases h

end SplitProxy.Socks5
