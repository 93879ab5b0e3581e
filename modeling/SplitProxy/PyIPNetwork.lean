import SplitProxy.NetIPString

/-!
# Python's `ipaddress.ip_network`

`ip_network(text, strict=False)` as the admin API calls it: what texts it takes,
and the network they stand for. A text is split at its slashes, dots and colons;
errors carry no more than that there is one.
-/
namespace SplitProxy.PyIP

open GoText NetIP

/-- `IPv4Network` or `IPv6Network`; the zone of an address is its scope id. -/
structure Network where
  networkAddress : Addr
  prefixlen : Nat
  deriving DecidableEq, Repr

/-- `other in network`. -/
def Network.contains (n : Network) (other : Addr) : Prop :=
  match n.networkAddress, other with
  | .v4 x, .v4 y => y &&& maskTop n.prefixlen = x
  | .v6 x _, .v6 y _ => y &&& maskTop n.prefixlen = x
  | _, _ => False

/-- `str(network)`. -/
def Network.string (n : Network) : Bytes := n.networkAddress.string ++ 0x2F :: itoa n.prefixlen

/-! ## IPv4 -/

/-- `_parse_octet`: no leading zeros. -/
def parseOctet (s : Bytes) : Option Nat :=
  match decimal s with
  | none => none
  | some n =>
    if 3 < s.length then none
    else if s ≠ [0x30] ∧ s.head? = some 0x30 then none
    else if 255 < n then none
    else some n

/-- The integer of an `IPv4Address`. -/
def ipv4FromString (s : Bytes) : Option (BitVec 32) :=
  let octets := s.splitOn dot
  if octets.length ≠ 4 then none
  else (octets.mapM parseOctet).map (fun os => BitVec.ofNat 32 (ofDigits 0x100 os))

/-- `_prefix_from_prefix_string`; leading zeros are taken. -/
def prefixFromPrefixString (maxPrefixlen : Nat) (s : Bytes) : Option Nat :=
  (decimal s).bind (fun n => if n ≤ maxPrefixlen then some n else none)

/-- `_prefix_from_ip_int`: the number of ones in front, if only zeros follow. -/
def prefixFromIPInt (x : BitVec 32) : Option Nat := (List.range 33).find? (fun n => maskTop n = x)

/-- `_prefix_from_ip_string`: a netmask, else a hostmask. -/
def prefixFromIPString (s : Bytes) : Option Nat :=
  match ipv4FromString s with
  | none => none
  | some x => (prefixFromIPInt x).or (prefixFromIPInt (~~~x))

/-- `_split_optional_netmask`. -/
def splitOptionalNetmask (s : Bytes) : Option (Bytes × Option Bytes) :=
  match s.splitOn 0x2F with
  | [addr] => some (addr, none)
  | [addr, mask] => some (addr, some mask)
  | _ => none

/-- `_make_netmask` of `IPv4Network`, with no mask for a bare address. -/
def ipv4Prefixlen : Option Bytes → Option Nat
  | none => some 32
  | some mask => (prefixFromPrefixString 32 mask).or (prefixFromIPString mask)

def ipv4Network (s : Bytes) : Option Network :=
  match splitOptionalNetmask s with
  | none => none
  | some (addr, mask) =>
    match ipv4FromString addr, ipv4Prefixlen mask with
    | some x, some n => some ⟨.v4 (x &&& maskTop n), n⟩
    | _, _ => none

/-! ## IPv6 -/

def parseHextet (s : Bytes) : Option Nat :=
  if s = [] ∨ 4 < s.length then none else (s.mapM hexVal).map (ofDigits 0x10)

/-- An IPv4 suffix becomes two groups. -/
def hexSuffix (parts : List Bytes) : Option (List Bytes) :=
  match parts.getLast? with
  | none => none
  | some last =>
    if dot ∈ last then
      (ipv4FromString last).map (fun x =>
        parts.dropLast ++ [numeral 16 (x.toNat / 0x10000), numeral 16 (x.toNat % 0x10000)])
    else some parts

/-- The empty parts that are not at an end. -/
def skips (parts : List Bytes) : List Nat :=
  (List.range parts.length).filter (fun i => 0 < i ∧ i + 1 < parts.length ∧ parts[i]? = some [])

/-- The groups in front of `::`; a text may begin with it. -/
def groupsAbove (parts : List Bytes) : Option (List Bytes) :=
  if parts.head? = some [] then if parts.length = 1 then some [] else none else some parts

/-- The groups behind `::`; a text may end with it. -/
def groupsBelow (parts : List Bytes) : Option (List Bytes) :=
  if parts.getLast? = some [] then if parts.length = 1 then some [] else none else some parts

/-- The hextets of the parts of a text. -/
def hextetsOf (parts : List Bytes) : Option (List Nat) :=
  match skips parts with
  | [] => if parts.length ≠ 8 then none else parts.mapM parseHextet
  | [i] =>
    match groupsAbove (parts.take i), groupsBelow (parts.drop (i + 1)) with
    | some above, some below =>
      if 7 < above.length + below.length then none
      else
        match above.mapM parseHextet, below.mapM parseHextet with
        | some hi, some lo =>
          some (hi ++ List.replicate (8 - (above.length + below.length)) 0 ++ lo)
        | _, _ => none
    | _, _ => none
  | _ => none

/-- The integer of an `IPv6Address` without its scope. -/
def ipv6FromString (s : Bytes) : Option (BitVec 128) :=
  let parts := s.splitOn colon
  if parts.length < 3 then none
  else
    match hexSuffix parts with
    | none => none
    | some parts =>
      if 9 < parts.length then none
      else (hextetsOf parts).map (fun hs => BitVec.ofNat 128 (ofDigits 0x10000 hs))

/-- `_split_scope_id`. -/
def splitScopeId (s : Bytes) : Option (Bytes × Bytes) :=
  match splitFirst percent s with
  | none => some (s, [])
  | some (addr, scope) => if scope = [] ∨ percent ∈ scope then none else some (addr, scope)

def ipv6Prefixlen : Option Bytes → Option Nat
  | none => some 128
  | some mask => prefixFromPrefixString 128 mask

/-- Host bits are cleared, and with them the scope goes. -/
def ipv6Network (s : Bytes) : Option Network :=
  match splitOptionalNetmask s with
  | none => none
  | some (addr, mask) =>
    match splitScopeId addr with
    | none => none
    | some (body, scope) =>
      match ipv6FromString body, ipv6Prefixlen mask with
      | some x, some n =>
        if x &&& maskTop n = x then some ⟨.v6 x scope, n⟩ else some ⟨.v6 (x &&& maskTop n) [], n⟩
      | _, _ => none

/-- `ip_network(s, strict=False)`. -/
def ipNetwork (s : Bytes) : Option Network := (ipv4Network s).or (ipv6Network s)

/-- `10.1.2.3/255.255.0.0` -/
example : ipNetwork [0x31, 0x30, 0x2E, 0x31, 0x2E, 0x32, 0x2E, 0x33, 0x2F, 0x32, 0x35, 0x35, 0x2E,
    0x32, 0x35, 0x35, 0x2E, 0x30, 0x2E, 0x30] = some ⟨.v4 0x0A010000, 16⟩ := by decide +kernel

/-- `fe80::1/10` -/
example : ipNetwork [0x66, 0x65, 0x38, 0x30, 0x3A, 0x3A, 0x31, 0x2F, 0x31, 0x30] =
    some ⟨.v6 0xfe800000000000000000000000000000 [], 10⟩ := by decide +kernel

end SplitProxy.PyIP
