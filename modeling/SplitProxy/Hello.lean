import SplitProxy.RoutedTarget

/-!
# The first message of a link

A worker and a proxy present themselves to the broker with a JSON object of strings that
holds their token. What the broker compares is the token that comes back out of the
message, and a text that is not in UTF-8 does not come back as it went in.
-/
namespace SplitProxy.Hello

open GoText HTTPConnect
open MessageSize (readLimit)

structure WorkerHello where
  workerGUID : Bytes
  token : Bytes
  deriving DecidableEq, Repr

structure ProxyHello where
  token : Bytes
  deriving DecidableEq, Repr

/-- `json.Marshal` in `runBrokerConnection`. -/
def WorkerHello.marshal (hello : WorkerHello) : Bytes :=
  writeObject [(ascii "workerGUID", hello.workerGUID), (ascii "token", hello.token)]

/-- `json.Marshal` in `dialBroker`. -/
def ProxyHello.marshal (hello : ProxyHello) : Bytes := writeObject [(ascii "token", hello.token)]

/-- `json.Unmarshal` into a hello of a worker, on messages that hold an object of strings. -/
def unmarshalWorker (msg : Bytes) : Option WorkerHello :=
  (readObject msg).map fun members =>
    ⟨member members (ascii "workerGUID"), member members (ascii "token")⟩

def unmarshalProxy (msg : Bytes) : Option ProxyHello :=
  (readObject msg).map fun members => ⟨member members (ascii "token")⟩

/-- `ReadMessage` under the limit that both handlers set. -/
def readMessage (msg : Bytes) : Option Bytes := if msg.length ≤ readLimit then some msg else none

/-- The test of `workerHandler` on what `json.Unmarshal` gives. -/
def acceptsWorker (workerToken : Bytes) : Option WorkerHello → Bool
  | none => false
  | some hello => !(hello.workerGUID = [] || hello.token ≠ workerToken)

def acceptsProxy (proxyToken : Bytes) : Option ProxyHello → Bool
  | none => false
  | some hello => !(hello.token ≠ proxyToken)

/-- The GUID under which a worker that sends the message is registered. -/
def greetWorker (workerToken msg : Bytes) : Option Bytes :=
  let hello := (readMessage msg).bind unmarshalWorker
  if acceptsWorker workerToken hello then hello.map WorkerHello.workerGUID else none

def greetProxy (proxyToken msg : Bytes) : Bool :=
  acceptsProxy proxyToken ((readMessage msg).bind unmarshalProxy)

theorem unmarshalWorker_marshal (hello : WorkerHello) :
    unmarshalWorker hello.marshal = some ⟨validUTF8 hello.workerGUID, validUTF8 hello.token⟩ := by
  have hkeys : validUTF8 (ascii "workerGUID") = ascii "workerGUID" ∧
      validUTF8 (ascii "token") = ascii "token" := by decide +kernel
  have hne : ascii "workerGUID" ≠ ascii "token" := by decide +kernel
  rw [unmarshalWorker, WorkerHello.marshal, readObject_writeObject]
  simp only [List.map_cons, List.map_nil, validMember, hkeys.1, hkeys.2, Option.map_some, member,
    List.foldl_cons, List.foldl_nil, hne, hne.symm, ↓reduceIte, Option.getD_some]

theorem unmarshalProxy_marshal (hello : ProxyHello) :
    unmarshalProxy hello.marshal = some ⟨validUTF8 hello.token⟩ := by
  have hkey : validUTF8 (ascii "token") = ascii "token" := by decide +kernel
  rw [unmarshalProxy, ProxyHello.marshal, readObject_writeObject]
  simp only [List.map_cons, List.map_nil, validMember, hkey, Option.map_some, member,
    List.foldl_cons, List.foldl_nil, ↓reduceIte, Option.getD_some]

theorem validUTF8_eq_nil {s : Bytes} : validUTF8 s = [] ↔ s = [] := by
  constructor
  · intro h
    cases s with
    | nil => rfl
    | cons b s =>
      rw [validUTF8_cons] at h
      have hrune := (List.append_eq_nil_iff.mp h).1
      have hpos : 0 < (encodeRune (decodeRune b s).1).length := by
        unfold encodeRune
        repeat' split
        all_goals simp
      rw [hrune] at hpos
      cases hpos
  · rintro rfl
    rfl

/-- A worker that sends what it marshals is let in exactly if its GUID is not empty, its message
is within the read limit and its token, written as UTF-8, is the broker's; the broker
then knows it by its GUID written as UTF-8. -/
theorem greetWorker_marshal (workerToken : Bytes) (hello : WorkerHello) (guid : Bytes) :
    greetWorker workerToken hello.marshal = some guid ↔
      hello.marshal.length ≤ readLimit ∧ hello.workerGUID ≠ [] ∧
        validUTF8 hello.token = workerToken ∧ guid = validUTF8 hello.workerGUID := by
  have hguid : validUTF8 hello.workerGUID = [] ↔ hello.workerGUID = [] := validUTF8_eq_nil
  by_cases hlen : hello.marshal.length ≤ readLimit
  · by_cases haccept : hello.workerGUID ≠ [] ∧ validUTF8 hello.token = workerToken
    · simp [greetWorker, readMessage, hlen, unmarshalWorker_marshal, acceptsWorker, hguid, haccept,
        eq_comm]
    · have hrefused : acceptsWorker workerToken
          (some ⟨validUTF8 hello.workerGUID, validUTF8 hello.token⟩) = false := by
        simp only [acceptsWorker, hguid]
        by_cases hnil : hello.workerGUID = []
        · simp [hnil]
        · have htoken : validUTF8 hello.token ≠ workerToken := fun h => haccept ⟨hnil, h⟩
          simp [htoken]
      rw [greetWorker, readMessage, if_pos hlen, Option.bind_some, unmarshalWorker_marshal, hrefused]
      constructor
      · intro h
        cases h
      · rintro ⟨-, hnil, htoken, -⟩
        exact absurd ⟨hnil, htoken⟩ haccept
  · simp [greetWorker, readMessage, hlen, acceptsWorker]

theorem greetProxy_marshal (proxyToken : Bytes) (hello : ProxyHello) :
    greetProxy proxyToken hello.marshal = true ↔
      hello.marshal.length ≤ readLimit ∧ validUTF8 hello.token = proxyToken := by
  by_cases hlen : hello.marshal.length ≤ readLimit
  · simp [greetProxy, readMessage, hlen, unmarshalProxy_marshal, acceptsProxy]
  · simp [greetProxy, readMessage, hlen, acceptsProxy]

/-- A link is let in for what comes back out of its message, worker and proxy alike. -/
theorem links_admitted (configured : Bytes) (worker : WorkerHello) (proxy : ProxyHello)
    (guid : Bytes) :
    (greetWorker configured worker.marshal = some guid ↔
      worker.marshal.length ≤ readLimit ∧ worker.workerGUID ≠ [] ∧
        validUTF8 worker.token = configured ∧ guid = validUTF8 worker.workerGUID) ∧
    (greetProxy configured proxy.marshal = true ↔
      proxy.marshal.length ≤ readLimit ∧ validUTF8 proxy.token = configured) :=
  ⟨greetWorker_marshal configured worker guid, greetProxy_marshal configured proxy⟩

/-- Where both sides are given one token, a link is let in only if the token is in UTF-8:
a broker with any other token turns its own workers and proxies away. -/
theorem one_token (token guid : Bytes) :
    ((greetWorker token (WorkerHello.marshal ⟨guid, token⟩)).isSome = true ↔
      (WorkerHello.marshal ⟨guid, token⟩).length ≤ readLimit ∧ guid ≠ [] ∧
        validString token = true) ∧
    (greetProxy token (ProxyHello.marshal ⟨token⟩) = true ↔
      (ProxyHello.marshal ⟨token⟩).length ≤ readLimit ∧ validString token = true) := by
  rw [← validUTF8_eq_iff]
  constructor
  · rw [Option.isSome_iff_exists]
    constructor
    · rintro ⟨guid', hgreet⟩
      obtain ⟨hlen, hguid, htoken, -⟩ := (greetWorker_marshal token _ guid').mp hgreet
      exact ⟨hlen, hguid, htoken⟩
    · rintro ⟨hlen, hguid, htoken⟩
      exact ⟨validUTF8 guid, (greetWorker_marshal token _ _).mpr ⟨hlen, hguid, htoken, rfl⟩⟩
  · exact greetProxy_marshal token _

end SplitProxy.Hello
