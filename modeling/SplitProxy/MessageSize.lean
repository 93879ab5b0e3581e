import SplitProxy.Fifo
import SplitProxy.HandleConn
import SplitProxy.JSONText
import SplitProxy.Wire

/-!
# The size of what goes over the links

Clients of the proxies, the broker and the workers as one system of message
queues. Each reader of a link fails the whole link on a message over its limit;
every message is built as the code builds it, so its length can be told.
-/
namespace SplitProxy.MessageSize

open Runs GoText NetIP Routing HTTPConnect Socks5

/-- `WorkerReadLimit`, and the limit of the proxy's own reader. -/
def readLimit : Nat := 128 * 1024

/-! ## Messages -/

/-- A session id as text. -/
abbrev Id := {b : Bytes // b.length = 36}

def hexString (b : Bytes) : Bytes :=
  b.flatMap (fun x => [digitByte (x.toNat / 0x10), digitByte (x.toNat % 0x10)])

def dash : UInt8 := 0x2D

/-- Sixteen random bytes. -/
abbrev Random := {b : Bytes // b.length = 16}

/-- The bytes `newSessionID` encodes: version and variant are set. -/
def versioned (b : Bytes) : Bytes :=
  (b.modify 6 (fun x => (x &&& 0x0f) ||| 0x40)).modify 8 (fun x => (x &&& 0x3f) ||| 0x80)

/-- Five groups of hexadecimal digits. -/
def grouped (encoded : Bytes) : Bytes :=
  slice encoded 0 8 ++ dash :: slice encoded 8 12 ++ dash :: slice encoded 12 16 ++
    dash :: slice encoded 16 20 ++ dash :: slice encoded 20 32

theorem length_hexString (b : Bytes) : (hexString b).length = 2 * b.length := by
  rw [hexString]
  induction b with
  | nil => rfl
  | cons x b ih =>
    rw [List.flatMap_cons, List.length_append, ih, List.length_cons]
    simp only [List.length_cons, List.length_nil]
    omega

theorem length_grouped {encoded : Bytes} (h : encoded.length = 32) : (grouped encoded).length = 36 := by
  simp only [grouped, slice, List.length_append, List.length_cons, List.length_drop,
    List.length_take, h]
  rfl

def newSessionID (random : Random) : Id :=
  ⟨grouped (hexString (versioned random.val)), length_grouped (by
    rw [length_hexString, versioned, List.length_modify, List.length_modify, random.property])⟩

def modeText : Mode → Bytes
  | .tcp => ascii "tcp"
  | .udp => ascii "udp"

structure BrokerRequest where
  id : Id
  route : Bytes
  target : Bytes
  mode : Mode

/-- `json.Marshal` of a request. -/
def marshal (r : BrokerRequest) : Bytes :=
  ascii "\x7b\"id\":" ++ jsonString r.id.val ++ ascii ",\"route\":" ++ jsonString r.route ++
    ascii ",\"target\":" ++ jsonString r.target ++ ascii ",\"mode\":" ++ jsonString (modeText r.mode) ++
    ascii "\x7d"

/-- What a proxy sends to the broker. -/
inductive Message where
  | text (req : BrokerRequest)
  | binary (f : Frame Id)

def Message.bytes : Message → Bytes
  | .text req => marshal req
  | .binary f => packet f.id.val f.cmd f.payload

/-- The errors of `openProxySession` the proxy is told about. -/
inductive OpenFailure where
  | shuttingDown
  | noWorkers
  | workerUnavailable
  | workerDisconnected
  | sendTimeout

def OpenFailure.text (route : Bytes) : OpenFailure → Bytes
  | .shuttingDown => ascii "broker shutting down"
  | .noWorkers => ascii "no workers available for group=" ++ route
  | .workerUnavailable => ascii "worker unavailable"
  | .workerDisconnected => ascii "worker disconnected"
  | .sendTimeout => ascii "worker send timeout"

/-- `MaxPacketData` -/
def maxPacketData : Nat := 32 * 1024

/-- The buffers that datagrams and the bytes of a target are read into. -/
def readBuffer : Nat := 64 * 1024

def chunksFrom : Nat → Bytes → List Bytes
  | 0, _ => []
  | fuel + 1, data =>
    if data = [] then [] else data.take maxPacketData :: chunksFrom fuel (data.drop maxPacketData)

/-- The inner loop of `remoteReader`. -/
def chunks (data : Bytes) : List Bytes := chunksFrom data.length data

theorem maxPacketData_pos : 0 < maxPacketData := Nat.le_of_ble_eq_true rfl

theorem chunksFrom_enough {data : Bytes} {fuel fuel' : Nat} (h : data.length ≤ fuel)
    (h' : data.length ≤ fuel') : chunksFrom fuel data = chunksFrom fuel' data := by
  have hmax := maxPacketData_pos
  induction fuel generalizing data fuel' with
  | zero =>
    rw [List.eq_nil_of_length_eq_zero (Nat.le_zero.mp h)]
    cases fuel' <;> rfl
  | succ fuel ih =>
    by_cases hd : data = []
    · subst hd
      cases fuel' <;> rfl
    · have hpos : 0 < data.length := List.length_pos_iff.mpr hd
      cases fuel' with
      | zero => omega
      | succ fuel' =>
        rw [chunksFrom, chunksFrom, if_neg hd, if_neg hd]
        congr 1
        refine ih ?_ ?_ <;> rw [List.length_drop] <;> omega

theorem chunks_cons {data : Bytes} (hd : 0 < data.length) :
    chunks data = data.take maxPacketData :: chunks (data.drop maxPacketData) := by
  have hmax := maxPacketData_pos
  have hne : data ≠ [] := List.length_pos_iff.mp hd
  obtain ⟨fuel, hfuel⟩ : ∃ fuel, data.length = fuel + 1 := ⟨data.length - 1, by omega⟩
  rw [chunks, hfuel, chunksFrom, if_neg hne]
  congr 1
  refine chunksFrom_enough ?_ (Nat.le_refl _)
  rw [List.length_drop]
  omega

/-- The induction over the chunks of some data. -/
theorem chunks_induction {P : Bytes → Prop} (hnil : P [])
    (hcons : ∀ data, 0 < data.length → P (data.drop maxPacketData) → P data) (data : Bytes) :
    P data := by
  have hmax := maxPacketData_pos
  have hfrom : ∀ k (data : Bytes), data.length ≤ k → P data := by
    intro k
    induction k with
    | zero =>
      intro data h
      rw [List.eq_nil_of_length_eq_zero (Nat.le_zero.mp h)]
      exact hnil
    | succ k ih =>
      intro data h
      by_cases hd : 0 < data.length
      · refine hcons data hd (ih _ ?_)
        rw [List.length_drop]
        omega
      · exact ih data (by omega)
  exact hfrom _ data (Nat.le_refl _)

/-- A chunk is what is left of the data, up to the limit. -/
theorem mem_chunks {data chunk : Bytes} (h : chunk ∈ chunks data) :
    ∃ rest : Bytes, 0 < rest.length ∧ chunk = rest.take maxPacketData := by
  induction data using chunks_induction with
  | hnil => exact absurd h List.not_mem_nil
  | hcons data hd ih =>
    rw [chunks_cons hd] at h
    rcases List.mem_cons.mp h with rfl | h
    · exact ⟨data, hd, rfl⟩
    · exact ih h

theorem length_chunk {data chunk : Bytes} (h : chunk ∈ chunks data) : chunk.length ≤ maxPacketData := by
  obtain ⟨rest, -, rfl⟩ := mem_chunks h
  exact List.length_take_le _ _

theorem chunk_ne_nil {data chunk : Bytes} (h : chunk ∈ chunks data) : chunk ≠ [] := by
  have hmax := maxPacketData_pos
  obtain ⟨rest, hpos, rfl⟩ := mem_chunks h
  refine List.length_pos_iff.mp ?_
  rw [List.length_take]
  omega

/-- Nothing of what was read is left out. -/
theorem flatten_chunks (data : Bytes) : (chunks data).flatten = data := by
  induction data using chunks_induction with
  | hnil => rfl
  | hcons data hd ih => rw [chunks_cons hd, List.flatten_cons, ih, List.take_append_drop]

/-! ## Lengths of messages -/

theorem htmlSafe_digitByte : ∀ d < 0x10, htmlSafe (digitByte d) = true := by decide

/-- Nothing in a session id is escaped. -/
theorem htmlSafe_newSessionID (random : Random) : ∀ b ∈ (newSessionID random).val, htmlSafe b = true := by
  have hhex : ∀ b ∈ hexString (versioned random.val), htmlSafe b = true := by
    intro b hb
    obtain ⟨x, -, hx⟩ := List.mem_flatMap.mp hb
    have hlt := x.toNat_lt
    simp only [List.mem_cons, List.not_mem_nil, or_false] at hx
    rcases hx with rfl | rfl
    · exact htmlSafe_digitByte _ (by omega)
    · exact htmlSafe_digitByte _ (by omega)
  have hslice : ∀ i j, ∀ b ∈ slice (hexString (versioned random.val)) i j, htmlSafe b = true :=
    fun i j b hb => hhex b (List.mem_of_mem_take (List.mem_of_mem_drop hb))
  have hdash : htmlSafe dash = true := by decide
  intro b hb
  simp only [newSessionID, grouped, List.mem_append, List.mem_cons, or_assoc] at hb
  rcases hb with hb | rfl | hb | rfl | hb | rfl | hb | rfl | hb <;>
    first | exact hdash | exact hslice _ _ b hb

theorem length_marshal (random : Random) (route target : Bytes) (mode : Mode) :
    (marshal ⟨newSessionID random, route, target, mode⟩).length =
      escapedLength route + escapedLength target + 81 := by
  have hid : escapedLength (newSessionID random).val = 36 := by
    rw [escapedLength_safe (htmlSafe_newSessionID random), (newSessionID random).property]
  have hmode : escapedLength (modeText mode) = 3 := by cases mode <;> decide
  have h₁ : (ascii "\x7b\"id\":").length = 6 := by decide
  have h₂ : (ascii ",\"route\":").length = 9 := by decide
  have h₃ : (ascii ",\"target\":").length = 10 := by decide
  have h₄ : (ascii ",\"mode\":").length = 8 := by decide
  have h₅ : (ascii "\x7d").length = 1 := by decide
  simp only [marshal, List.length_append, length_jsonString, hid, hmode, h₁, h₂, h₃, h₄, h₅]
  omega

theorem length_packet (id : Id) (cmd : Command) (data : Bytes) :
    (packet id.val cmd data).length = 37 + data.length := by
  rw [packet_eq id.property, List.length_append, id.property, List.length_cons]
  omega

theorem packet_fits {id : Id} {cmd : Command} {data : Bytes} (h : data.length ≤ readBuffer) :
    (packet id.val cmd data).length ≤ readLimit := by
  rw [length_packet]
  have hl : readLimit = 2 * readBuffer := rfl
  have hb : 37 ≤ readBuffer := Nat.le_of_ble_eq_true rfl
  omega

theorem length_failure_le (route : Bytes) (e : OpenFailure) :
    (e.text route).length ≤ route.length + 31 := by
  cases e with
  | noWorkers =>
    have h : (ascii "no workers available for group=").length = 31 := by decide
    rw [OpenFailure.text, List.length_append, h, Nat.add_comm]
  | shuttingDown =>
    have h : (ascii "broker shutting down").length ≤ 31 := by decide
    exact Nat.le_trans h (Nat.le_add_left _ _)
  | workerUnavailable =>
    have h : (ascii "worker unavailable").length ≤ 31 := by decide
    exact Nat.le_trans h (Nat.le_add_left _ _)
  | workerDisconnected =>
    have h : (ascii "worker disconnected").length ≤ 31 := by decide
    exact Nat.le_trans h (Nat.le_add_left _ _)
  | sendTimeout =>
    have h : (ascii "worker send timeout").length ≤ 31 := by decide
    exact Nat.le_trans h (Nat.le_add_left _ _)

end SplitProxy.MessageSize
