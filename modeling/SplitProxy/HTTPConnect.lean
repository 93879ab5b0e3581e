import SplitProxy.NetIPString

/-!
# HTTP requests to the proxy

What `handleHTTPProxy` takes from a request: the CONNECT target and the Basic
credentials. `http.ReadRequest` itself stays outside; a request is what it
returned.
-/
namespace SplitProxy.HTTPConnect

open GoText NetIP

/-- The ASCII text of a string. -/
def ascii (s : String) : Bytes := s.toList.map (fun c => UInt8.ofNat c.toNat)

/-- The fields of an `http.Request` the proxy looks at. -/
structure Request where
  method : Bytes
  requestURI : Bytes
  host : Bytes
  /-- `req.Header.Values("Proxy-Authorization")` -/
  proxyAuthorization : List Bytes
  deriving DecidableEq, Repr

def methodConnect : Bytes := ascii "CONNECT"

/-! ## Replies -/

def badRequest : Nat := 400
def notImplemented : Nat := 501

/-- `http.StatusText` for the two statuses the proxy sends. -/
def statusText (status : Nat) : Bytes :=
  if status = badRequest then ascii "Bad Request"
  else if status = notImplemented then ascii "Not Implemented"
  else []

/-- What `writeProxyError` writes. -/
def proxyError (status : Nat) : Bytes :=
  ascii "HTTP/1.1 " ++ itoa status ++ ascii " " ++
    (if statusText status = [] then ascii "Error" else statusText status) ++
    ascii "\r\nConnection: close\r\nContent-Length: 0\r\n\r\n"

/-- What `writeProxyAuthRequired` writes. -/
def proxyAuthRequired : Bytes :=
  ascii ("HTTP/1.1 407 Proxy Authentication Required\r\n" ++
    "Proxy-Authenticate: Basic realm=\"Proxy\"\r\n" ++
    "Connection: close\r\nContent-Length: 0\r\n\r\n")

def connectionEstablished : Bytes := ascii "HTTP/1.1 200 Connection Established\r\n\r\n"

/-! ## The target -/

def parseConnectTarget (req : Request) : Option (Bytes × Bytes) :=
  let target := if req.requestURI = [] then req.host else req.requestURI
  if target = [] then none
  else
    match splitHostPort target with
    | none => none
    | some (host, port) =>
      if host = [] then none
      else
        match atoi port with
        | none => none
        | some portNum => if portNum < 1 ∨ 65535 < portNum then none else some (host, port)

/-! ## The credentials -/

/-- The six bits of a character of `base64.StdEncoding`. -/
def sextet (c : UInt8) : Option Nat :=
  if 0x41 ≤ c.toNat ∧ c.toNat ≤ 0x5A then some (c.toNat - 0x41)
  else if 0x61 ≤ c.toNat ∧ c.toNat ≤ 0x7A then some (c.toNat - 0x61 + 26)
  else if isDigit c then some (c.toNat - 0x30 + 52)
  else if c = 0x2B then some 62
  else if c = 0x2F then some 63
  else none

def padChar : UInt8 := 0x3D

/-- The bytes of one quantum, of which `n` are wanted. -/
def quantum (n : Nat) (sextets : List Nat) : Bytes :=
  let val := ofDigits 64 sextets
  [UInt8.ofNat (val / 0x10000), UInt8.ofNat (val / 0x100 % 0x100), UInt8.ofNat (val % 0x100)].take n

/-- Four characters at a time, the last four with up to two padding characters. -/
def decodeQuanta : Bytes → Option Bytes
  | [] => some []
  | a :: b :: c :: d :: rest =>
    match sextet a, sextet b with
    | some x, some y =>
      if c = padChar then if d = padChar ∧ rest = [] then some (quantum 1 [x, y, 0, 0]) else none
      else
        match sextet c with
        | none => none
        | some z =>
          if d = padChar then if rest = [] then some (quantum 2 [x, y, z, 0]) else none
          else
            match sextet d with
            | none => none
            | some w => (decodeQuanta rest).map (quantum 3 [x, y, z, w] ++ ·)
    | _, _ => none
  | _ => none

/-- `base64.StdEncoding.DecodeString`: line breaks are skipped wherever they stand. -/
def decodeString (s : Bytes) : Option Bytes :=
  decodeQuanta (s.filter fun c => c ≠ 0x0A ∧ c ≠ 0x0D)

/-- `strings.EqualFold(scheme, "Basic")`: besides the ASCII letters, the long s
folds to `s`. -/
def isBasic (scheme : Bytes) : Bool :=
  scheme.map lowerByte = ascii "basic" ∨
    scheme.map lowerByte = [0x62, 0x61, 0xC5, 0xBF, 0x69, 0x63]

/-- `CheckAuthUser` up to the call of `CheckCredentials`. -/
def basicCredentials (values : List Bytes) : Option (Bytes × Bytes) :=
  match values with
  | [value] =>
    match splitFirst 0x20 value with
    | none => none
    | some (scheme, encoded) =>
      if isBasic scheme then (decodeString encoded).bind (splitFirst colon) else none
  | _ => none

/-- The credentials `alice:secret` of a client. -/
example : basicCredentials [ascii "Basic YWxpY2U6c2VjcmV0"] =
    some (ascii "alice", ascii "secret") := by decide

end SplitProxy.HTTPConnect
