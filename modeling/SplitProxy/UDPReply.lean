import SplitProxy.ClientBinding
import SplitProxy.RequestGrammar

/-!
# Replies of a UDP association

A reply carries the target of its session, which has gone through text: joined
with its port, split again and perhaps read as an address. The request parser
reads it back as the host the session was opened for.
-/
namespace SplitProxy.ClientBinding

open GoText NetIP Socks5

variable {data host h q payload : Bytes} {port : Nat} {packet : SOCKS5UDPPacket}

/-! ## Fields of a reply -/

theorem bigEndian_bytesOf {n : Nat} (x : BitVec (8 * n)) : bigEndian (bytesOf n x) = x.toNat := by
  have hplace : ∀ k < n, (UInt8.ofBitVec (x.extractLsb' (8 * n - 8 * (k + 1)) 8)).toNat =
      x.toNat / 0x100 ^ (n - 1 - k) % 0x100 := by
    intro k hk
    have hexp : 8 * n - 8 * (k + 1) = 8 * (n - 1 - k) := by omega
    rw [UInt8.toNat_ofBitVec, BitVec.extractLsb'_toNat, Nat.shiftRight_eq_div_pow, hexp, Nat.pow_mul]
  have hmap : (bytesOf n x).map UInt8.toNat =
      (List.range n).map fun k => x.toNat / 0x100 ^ (n - 1 - k) % 0x100 := by
    rw [bytesOf, List.map_map]
    exact List.map_congr_left fun k hk => hplace k (List.mem_range.mp hk)
  have hlt : x.toNat < 0x100 ^ n := by
    have hx := x.isLt
    rwa [Nat.pow_mul] at hx
  rw [bigEndian, hmap, ofDigits_places, Nat.mod_eq_of_lt hlt]

theorem length_bytesOf {w n : Nat} (x : BitVec w) : (bytesOf n x).length = n := by
  simp [bytesOf]

theorem bigEndian_portField (h : port < 0x10000) : bigEndian (portField port) = port := by
  simp only [bigEndian, portField, List.map_cons, List.map_nil, ofDigits, List.foldl_cons,
    List.foldl_nil, UInt8.toNat_ofNat']
  omega

theorem zone_unmap {ip : Addr} (hz : ip.withoutZone = ip) : ip.unmap.withoutZone = ip.unmap := by
  cases ip with
  | invalid => rfl
  | v4 b => rfl
  | v6 b z =>
    by_cases hm : (Addr.v6 b z).is4In6 = true
    · rw [Addr.unmap, if_pos hm]
      rfl
    · rw [Addr.unmap, if_neg hm, hz]

/-- An address without zone is written in a field that stands for its text. -/
theorem addressField_field {ip : Addr} (hv : ip.isValid = true) (hz : ip.withoutZone = ip) :
    ∃ atyp addr, addressField ip = atyp :: addr ∧ AddressField atyp addr (netIPString ip) := by
  have hvalid := ip.isValid_unmap.trans hv
  have hzone := zone_unmap hz
  have htext : netIPString ip.unmap = netIPString ip := by rw [netIPString, netIPString, ip.unmap_unmap]
  rw [← htext, addressField]
  cases hu : ip.unmap with
  | invalid =>
    rw [hu] at hvalid
    cases hvalid
  | v4 b =>
    have hb : BitVec.ofNat 32 (bigEndian (bytesOf 4 b)) = b := by
      rw [@bigEndian_bytesOf 4 b, BitVec.ofNat_toNat, BitVec.setWidth_eq]
    have hfield := AddressField.ipv4 (length_bytesOf (n := 4) b)
    rw [hb] at hfield
    exact ⟨_, _, rfl, hfield⟩
  | v6 b z =>
    rw [hu] at hzone
    cases hzone
    have hb : BitVec.ofNat 128 (bigEndian (bytesOf 16 b)) = b := by
      rw [@bigEndian_bytesOf 16 b, BitVec.ofNat_toNat, BitVec.setWidth_eq]
    have hfield := AddressField.ipv6 (length_bytesOf (n := 16) b)
    rw [hb] at hfield
    exact ⟨_, _, rfl, hfield⟩

/-- A reply made of fields is read as a datagram. -/
theorem parse_fields {atyp : UInt8} {addr : Bytes} (hf : AddressField atyp addr host)
    (hp : port < 0x10000) (payload : Bytes) :
    parseSOCKS5UDPRequest ([0x00, 0x00, 0x00] ++ atyp :: addr ++ portField port ++ payload) =
      some ⟨atyp, host, port, payload⟩ := by
  have hread : readSOCKS5Request (0x05 :: 0x00 :: 0x00 :: (atyp :: addr ++ portField port ++ payload)) =
      some (⟨0x00, atyp, host, port⟩, payload) :=
    readSOCKS5Request_iff.mpr ⟨rfl, addr, portField port, rfl, hf, rfl, bigEndian_portField hp⟩
  have heq := parseSOCKS5UDPRequest_eq 0x00 (atyp :: addr ++ portField port ++ payload)
  rw [hread] at heq
  exact heq

/-! ## Replies for a target -/

/-- The host between the brackets that `JoinHostPort` would have put, if there are any. -/
def Unbracketed (host h : Bytes) : Prop :=
  openBracket ∉ h ∧ closeBracket ∉ h ∧
    (host = h ∨ colon ∉ h ∧ host = openBracket :: h ++ [closeBracket])

theorem unbracketed_length (hu : Unbracketed host h) : h.length ≤ host.length := by
  rcases hu.2.2 with rfl | ⟨-, rfl⟩
  · exact Nat.le_refl _
  · simp only [List.length_append, List.length_cons]
    omega

/-- A host as it comes back in a reply: an address in its canonical text. -/
def canonical (h : Bytes) : Bytes :=
  match parseIP h with
  | some ip => netIPString ip
  | none => h

theorem parseIP_some {ip : Addr} (h : parseIP host = some ip) :
    parseAddr host = some ip ∧ ip.isValid = true ∧ ip.withoutZone = ip := by
  obtain ⟨hp, hz⟩ := Option.filter_eq_some_iff.mp h
  exact ⟨hp, parseAddr_valid hp, decide_eq_true_eq.mp hz⟩

theorem response_none (h : splitHostPort host = none) (payload : Bytes) :
    buildSOCKS5UDPResponseFromTarget host payload = [] := by
  rw [buildSOCKS5UDPResponseFromTarget, h]

/-- The reply for a target that is split into a host and a port. -/
theorem response_some {target : Bytes} (hs : splitHostPort target = some (h, itoa port))
    (hp : port < 0x10000) (hl : h.length < 0x100) (payload : Bytes) :
    ∃ atyp addr, buildSOCKS5UDPResponseFromTarget target payload =
        [0x00, 0x00, 0x00] ++ atyp :: addr ++ portField port ++ payload ∧
      AddressField atyp addr (canonical h) := by
  have hport : ¬((port : Int) < 0 ∨ (65535 : Int) < port) := by omega
  simp only [buildSOCKS5UDPResponseFromTarget, hs, atoi_itoa (Nat.lt_trans hp (by decide)), if_neg hport,
    Int.toNat_natCast, canonical]
  cases hip : parseIP h with
  | some ip =>
    obtain ⟨-, hv, hz⟩ := parseIP_some hip
    obtain ⟨atyp, addr, he, hf⟩ := addressField_field hv hz
    exact ⟨atyp, addr, by simp only [he], hf⟩
  | none =>
    refine ⟨0x03, lengthPrefixed h, ?_, .domain hl⟩
    rw [if_neg (by omega)]
    simp [lengthPrefixed]

/-- Text by `JoinHostPort` is taken apart again where the host is bare or in brackets. -/
theorem response_joined (hu : Unbracketed host h) (hp : port < 0x10000) (hl : h.length < 0x100)
    (payload : Bytes) :
    buildSOCKS5UDPResponseFromTarget (joinHostPort host (itoa port)) payload ≠ [] ∧
      ∃ reply, parseSOCKS5UDPRequest
          (buildSOCKS5UDPResponseFromTarget (joinHostPort host (itoa port)) payload) = some reply ∧
        reply.port = port ∧ reply.payload = payload ∧ reply.host = canonical h := by
  have hs : splitHostPort (joinHostPort host (itoa port)) = some (h, itoa port) :=
    (splitHostPort_join_iff (portText_itoa port)).mpr ⟨rfl, hu⟩
  obtain ⟨atyp, addr, he, hf⟩ := response_some hs hp hl payload
  rw [he]
  exact ⟨by simp, _, parse_fields hf hp payload, rfl, rfl, rfl⟩

theorem response_ne_nil_iff (hp : port < 0x10000) (hl : host.length < 0x100) (payload : Bytes) :
    buildSOCKS5UDPResponseFromTarget (joinHostPort host (itoa port)) payload ≠ [] ↔
      ∃ h, Unbracketed host h := by
  constructor
  · intro hne
    cases hs : splitHostPort (joinHostPort host (itoa port)) with
    | none => exact absurd (response_none hs payload) hne
    | some p =>
      obtain ⟨h, q⟩ := p
      exact ⟨h, ((splitHostPort_join_iff (portText_itoa port)).mp hs).2⟩
  · rintro ⟨h, hu⟩
    have hle := unbracketed_length hu
    exact (response_joined hu hp (Nat.lt_of_le_of_lt hle hl) payload).1

/-- The reply with an address is the reply for its text. -/
theorem response_address {a : UDPAddr} (hp : a.port < 0x10000) (payload : Bytes) :
    buildSOCKS5UDPResponse a payload =
      buildSOCKS5UDPResponseFromTarget (joinHostPort (netIPString a.ip) (itoa a.port)) payload := by
  have hv := a.ip.isValid_unmap.trans a.plain.1
  have hz := zone_unmap a.plain.2
  have hzone : Direct.zone a.ip.unmap = [] := by
    rw [← hz]
    cases a.ip.unmap <;> rfl
  have hno : ∀ b : UInt8, b = openBracket ∨ b = closeBracket → b ∉ netIPString a.ip := by
    intro b hb hm
    have hmem := (Direct.bracket_in_text hv hb).1.mp hm
    rw [hzone] at hmem
    exact absurd hmem List.not_mem_nil
  have hs : splitHostPort (joinHostPort (netIPString a.ip) (itoa a.port)) =
      some (netIPString a.ip, itoa a.port) :=
    (splitHostPort_join_iff (portText_itoa a.port)).mpr
      ⟨rfl, hno _ (Or.inl rfl), hno _ (Or.inr rfl), Or.inl rfl⟩
  have hip : parseIP (netIPString a.ip) = some a.ip.unmap := by
    rw [parseIP, netIPString, parseAddr_string hv, Option.filter_some, if_pos (by simpa using hz)]
  have hport : ¬((a.port : Int) < 0 ∨ (65535 : Int) < a.port) := by omega
  have hfield : addressField a.ip.unmap = addressField a.ip := by
    rw [addressField, addressField, a.ip.unmap_unmap]
  simp only [buildSOCKS5UDPResponseFromTarget, hs, atoi_itoa (Nat.lt_trans hp (by decide)), if_neg hport,
    Int.toNat_natCast, hip, hfield, buildSOCKS5UDPResponse]

/-- A reply for an accepted datagram's target is there exactly where the host is bare
or a bare text in brackets; it is read back with that text, port and payload. The reply
with an address is the reply for the address in text. -/
theorem reply_inverts_request (data : Bytes) (packet : SOCKS5UDPPacket) (payload : Bytes)
    (hpacket : parseSOCKS5UDPRequest data = some packet) :
    (buildSOCKS5UDPResponseFromTarget (joinHostPort packet.host (itoa packet.port)) payload ≠ [] ↔
      ∃ h, Unbracketed packet.host h) ∧
    (∀ h, Unbracketed packet.host h → ∃ reply, parseSOCKS5UDPRequest
        (buildSOCKS5UDPResponseFromTarget (joinHostPort packet.host (itoa packet.port)) payload) =
          some reply ∧
      reply.port = packet.port ∧ reply.payload = payload ∧ reply.host = canonical h) ∧
    ∀ a : UDPAddr, a.port < 0x10000 → buildSOCKS5UDPResponse a payload =
      buildSOCKS5UDPResponseFromTarget (joinHostPort (netIPString a.ip) (itoa a.port)) payload := by
  have hp := port_lt hpacket
  have hl := Nat.lt_succ_of_le (length_udpPacket hpacket).1
  refine ⟨response_ne_nil_iff hp hl payload, fun h hu => ?_, fun a ha => response_address ha payload⟩
  have hle := unbracketed_length hu
  exact (response_joined hu hp (Nat.lt_of_le_of_lt hle hl) payload).2

/-- A name of one letter is answered under that name, with the bytes of the reply. -/
theorem letter_reply :
    (buildSOCKS5UDPResponseFromTarget (joinHostPort [0x61] (itoa 80)) [3, 4, 5] ≠ [] ↔
      ∃ h, Unbracketed [0x61] h) ∧
    (∀ h, Unbracketed [0x61] h → ∃ reply, parseSOCKS5UDPRequest
        (buildSOCKS5UDPResponseFromTarget (joinHostPort [0x61] (itoa 80)) [3, 4, 5]) =
          some reply ∧
      reply.port = 80 ∧ reply.payload = [3, 4, 5] ∧ reply.host = canonical h) ∧
    ∀ a : UDPAddr, a.port < 0x10000 → buildSOCKS5UDPResponse a [3, 4, 5] =
      buildSOCKS5UDPResponseFromTarget (joinHostPort (netIPString a.ip) (itoa a.port))
        [3, 4, 5] :=
  reply_inverts_request [0, 0, 0, 3, 1, 0x61, 0, 80, 1, 2] ⟨3, [0x61], 80, [1, 2]⟩ [3, 4, 5]
    (by decide +kernel)

/-- `[a]` has brackets and is answered all the same, as `a`. -/
theorem bracketed_reply : parseSOCKS5UDPRequest [0, 0, 0, 3, 3, 0x5B, 0x61, 0x5D, 0, 80] =
      some ⟨3, [0x5B, 0x61, 0x5D], 80, []⟩ ∧
    openBracket ∈ [0x5B, 0x61, 0x5D] ∧
    buildSOCKS5UDPResponseFromTarget (joinHostPort [0x5B, 0x61, 0x5D] (itoa 80)) [] =
      [0, 0, 0, 3, 1, 0x61, 0, 80] := by decide +kernel

end SplitProxy.ClientBinding
