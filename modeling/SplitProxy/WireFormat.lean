import SplitProxy.AddressText
import SplitProxy.MessageSize
import SplitProxy.RelayChain
import SplitProxy.RoutedTarget
import SplitProxy.TableIsolation

/-!
# The frames on the wire

The proxy, the broker and the worker each build frames into a buffer and read
them back by offsets, in code of their own. Here every encoder writes into its
buffer as its source does, the worker into one that another frame was in before.
-/
namespace SplitProxy.WireFormat

open GoText NetIP Socks5 MessageSize

/-! ## Session ids -/

/-- The bits of byte `i` that `newSessionID` takes over from the random bytes. -/
def freeBits (i : Nat) : UInt8 := if i = 6 then 0x0f else if i = 8 then 0x3f else 0xff

/-- All but the six bits of the version and the variant are the same. -/
def AgreeOnFree (r₁ r₂ : Bytes) : Prop :=
  ∀ i, r₁[i]?.map (· &&& freeBits i) = r₂[i]?.map (· &&& freeBits i)

/-! ## Buffers -/

/-- `make([]byte, n)` -/
def make (n : Nat) : Bytes := List.replicate n 0

/-- `copy(buf[lo:hi], src)`: what of `src` fits between `lo` and `hi`. -/
def copyInto (buf : Bytes) (lo hi : Nat) (src : Bytes) : Bytes :=
  buf.take lo ++ src.take (hi - lo) ++ buf.drop (lo + (src.take (hi - lo)).length)

/-- The three stores into a buffer of `37 + len(data)` bytes. -/
def fill (buf id : Bytes) (cmd : UInt8) (data : Bytes) : Bytes :=
  let buf := copyInto buf 0 36 id
  let buf := buf.set 36 cmd
  copyInto buf 37 buf.length data

inductive MessageType where
  | text
  | binary
  deriving DecidableEq, Repr

/-- What a reader takes out of a message. -/
structure Decoded where
  id : Bytes
  cmd : UInt8
  payload : Bytes
  deriving DecidableEq, Repr

/-- `msg[:36]`, `msg[36]` and `msg[37:]`, unless `len(msg) < 37`. -/
def decode (msg : Bytes) : Option Decoded :=
  if h : msg.length < 37 then none
  else some ⟨msg.take 36, msg[36], msg.drop 37⟩

/-! ## The proxy -/

/-- `brokerOutbound` -/
structure BrokerOutbound where
  messageType : MessageType
  data : Bytes
  deriving DecidableEq, Repr

/-- `BrokerConnection.send` puts a copy of the data into the message. -/
def Proxy.connSend (messageType : MessageType) (data : Bytes) : BrokerOutbound :=
  ⟨messageType, [] ++ data⟩

/-- `BrokerSession.send` -/
def Proxy.send (id : Bytes) (cmd : UInt8) (payload : Bytes) : BrokerOutbound :=
  Proxy.connSend .binary (fill (make (37 + payload.length)) id cmd payload)

def Proxy.readLoop (messageType : MessageType) (msg : Bytes) : Option Decoded :=
  if messageType ≠ .binary then none else decode msg

/-! ## The broker -/

def Broker.packet (id : Bytes) (cmd : UInt8) (data : Bytes) : Bytes :=
  let b := make (37 + data.length)
  let b := copyInto b 0 36 id
  let b := b.set 36 cmd
  if 0 < data.length then copyInto b 37 b.length data else b

/-- `workerReader` hands on the message it has decoded. -/
def Broker.workerReader (msg : Bytes) : Option (Decoded × Bytes) :=
  (decode msg).map fun d => (d, msg)

/-- `proxyHandler` on a message that is no request. -/
def Broker.proxyHandler (messageType : MessageType) (msg : Bytes) : Option Decoded :=
  match messageType with
  | .text => none
  | .binary => decode msg

/-! ## The worker -/

/-- A buffer of `packetBufferPool`, with whatever was in it before. -/
abbrev PoolBuffer := {b : Bytes // b.length = 37 + maxPacketData}

structure BrokerWriterMessage where
  messageType : MessageType
  data : Bytes
  pooled : Bool
  deriving DecidableEq, Repr

/-- `sendPacket` up to its select; `old` is what the pool would give. -/
def Worker.sendPacket (old : PoolBuffer) (id : Bytes) (cmd : UInt8) (data : Bytes) :
    Option BrokerWriterMessage :=
  if id.length ≠ 36 then none
  else
    let pooled : Bool := data.length ≤ maxPacketData
    let buf := if pooled then old.val.take (37 + data.length) else make (37 + data.length)
    some ⟨.binary, fill buf id cmd data, pooled⟩

/-- `handleBrokerConnection` -/
def Worker.handleBrokerConnection (messageType : MessageType) (msg : Bytes) : Option Decoded :=
  if messageType ≠ .binary then none else decode msg

/-! ## What the encoders write -/

variable {id : Bytes} {data : Bytes} {buf : Bytes}

theorem length_make (n : Nat) : (make n).length = n := List.length_replicate

/-- A source that fills its destination. -/
theorem copyInto_exact {lo hi : Nat} {src : Bytes} (hlo : lo ≤ hi) (hsrc : src.length = hi - lo) :
    copyInto buf lo hi src = buf.take lo ++ src ++ buf.drop hi := by
  have hall : src.take (hi - lo) = src := by rw [← hsrc, List.take_length]
  have hend : lo + src.length = hi := by omega
  rw [copyInto, hall, hend]

theorem copyInto_id (hid : id.length = 36) (buf : Bytes) :
    copyInto buf 0 36 id = id ++ buf.drop 36 :=
  copyInto_exact (Nat.zero_le 36) hid

/-- Nothing of the old content is left in a buffer of the right length. -/
theorem fill_eq (hid : id.length = 36) (hbuf : buf.length = 37 + data.length) (cmd : UInt8) :
    fill buf id cmd data = id ++ cmd :: data := by
  have h36 : 36 < buf.length := by omega
  have hset : (id ++ buf.drop 36).set 36 cmd = (id ++ [cmd]) ++ buf.drop 37 := by
    rw [List.set_append_right _ _ (Nat.le_of_eq hid), hid, Nat.sub_self,
      List.drop_eq_getElem_cons h36, List.set_cons_zero, List.append_assoc, List.singleton_append]
  have hhead : (id ++ [cmd]).length = 37 := by rw [List.length_append, hid, List.length_singleton]
  have hlen : ((id ++ [cmd]) ++ buf.drop 37).length = 37 + data.length := by
    rw [List.length_append, hhead, List.length_drop, hbuf]
    omega
  have htake : ((id ++ [cmd]) ++ buf.drop 37).take 37 = id ++ [cmd] := by
    rw [← hhead, List.take_left]
  simp only [fill]
  rw [copyInto_id hid, hset, hlen, copyInto_exact (by omega) (by omega), htake,
    List.drop_eq_nil_of_le (by omega), List.append_nil, List.append_assoc, List.singleton_append]

/-! ## Ids tell the random bytes apart -/

/-- What `newSessionID` makes of byte `i`. -/
def stamp (i : Nat) (x : UInt8) : UInt8 :=
  if i = 6 then (x &&& 0x0f) ||| 0x40 else if i = 8 then (x &&& 0x3f) ||| 0x80 else x

theorem getElem_versioned (b : Bytes) (i : Nat) : (versioned b)[i]? = b[i]?.map (stamp i) := by
  simp only [versioned, List.getElem?_modify]
  cases b[i]? with
  | none => rfl
  | some x =>
    by_cases h6 : i = 6
    · subst h6
      rfl
    · by_cases h8 : i = 8
      · subst h8
        rfl
      · simp [stamp, h6, h8, Ne.symm h6, Ne.symm h8]

/-- Fixed bits outside the mask leave what is under it. -/
theorem and_or_and {x m k : UInt8} (h : k &&& m = 0) : ((x &&& m) ||| k) &&& m = x &&& m := by
  have hk : k.toBitVec &&& m.toBitVec = 0#8 := congrArg UInt8.toBitVec h
  apply UInt8.toBitVec_inj.mp
  rw [UInt8.toBitVec_and, UInt8.toBitVec_or, UInt8.toBitVec_and, BitVec.and_or_distrib_right, hk,
    BitVec.or_zero, BitVec.and_assoc, BitVec.and_self]

theorem stamp_free (i : Nat) (x : UInt8) : stamp i x &&& freeBits i = x &&& freeBits i := by
  by_cases h6 : i = 6
  · subst h6
    exact and_or_and rfl
  · by_cases h8 : i = 8
    · subst h8
      exact and_or_and rfl
    · simp only [stamp, h6, h8, ↓reduceIte]

/-- A stamp depends on the free bits only. -/
theorem stamp_of_free (i : Nat) (x : UInt8) : stamp i (x &&& freeBits i) = stamp i x := by
  by_cases h6 : i = 6
  · subst h6
    have hmask : (x &&& 0x0f) &&& 0x0f = x &&& 0x0f := by rw [UInt8.and_assoc, UInt8.and_self]
    exact congrArg (· ||| 0x40) hmask
  · by_cases h8 : i = 8
    · subst h8
      have hmask : (x &&& 0x3f) &&& 0x3f = x &&& 0x3f := by rw [UInt8.and_assoc, UInt8.and_self]
      exact congrArg (· ||| 0x80) hmask
    · have hall : x &&& 0xff = x := UInt8.and_neg_one
      simp only [stamp, freeBits, h6, h8, ↓reduceIte, hall]

theorem stamp_eq_iff {i : Nat} {x y : UInt8} :
    stamp i x = stamp i y ↔ x &&& freeBits i = y &&& freeBits i := by
  constructor
  · intro h
    rw [← stamp_free, h, stamp_free]
  · intro h
    rw [← stamp_of_free, h, stamp_of_free]

theorem versioned_eq_iff {r₁ r₂ : Bytes} : versioned r₁ = versioned r₂ ↔ AgreeOnFree r₁ r₂ := by
  rw [List.ext_getElem?_iff]
  refine forall_congr' fun i => ?_
  rw [getElem_versioned, getElem_versioned]
  cases r₁[i]? with
  | none => cases r₂[i]? <;> simp
  | some x =>
    cases r₂[i]? with
    | none => simp
    | some y => simp [stamp_eq_iff]

theorem digitByte_injective {d e : Nat} (hd : d < 16) (he : e < 16)
    (h : digitByte d = digitByte e) : d = e := by
  have hval := congrArg hexVal h
  rw [hexVal_digitByte d hd, hexVal_digitByte e he] at hval
  exact Option.some.inj hval

theorem hexString_injective {b c : Bytes} (h : hexString b = hexString c) : b = c := by
  induction b generalizing c with
  | nil =>
    cases c with
    | nil => rfl
    | cons y c => cases h
  | cons x b ih =>
    cases c with
    | nil => cases h
    | cons y c =>
      have hx := x.toNat_lt
      have hy := y.toNat_lt
      simp only [hexString, List.flatMap_cons, List.cons_append, List.nil_append,
        List.cons.injEq] at h
      obtain ⟨hhigh, hlow, hrest⟩ := h
      have hdiv := digitByte_injective (by omega) (by omega) hhigh
      have hmod := digitByte_injective (by omega) (by omega) hlow
      have hxy : x = y := UInt8.toNat_inj.mp (by omega)
      rw [hxy, ih hrest]

theorem slice_append {b : Bytes} {i j k : Nat} (hij : i ≤ j) (hjk : j ≤ k) :
    slice b i j ++ slice b j k = slice b i k := by
  have htake : b.take j = (b.take k).take j := by rw [List.take_take, Nat.min_eq_left hjk]
  have hdrop : (b.take k).drop j = ((b.take k).drop i).drop (j - i) := by
    rw [List.drop_drop]
    congr 1
    omega
  rw [slice, slice, slice, htake, hdrop, List.drop_take, List.take_append_drop]

theorem length_slice {b : Bytes} {i j : Nat} (hj : j ≤ b.length) : (slice b i j).length = j - i := by
  rw [slice, List.length_drop, List.length_take, Nat.min_eq_left hj]

/-- The groups of an id put together again. -/
theorem grouped_injective {b c : Bytes} (hb : b.length = 32) (hc : c.length = 32)
    (h : grouped b = grouped c) : b = c := by
  have hlen : ∀ {i j}, j ≤ 32 → (slice b i j).length = (slice c i j).length := by
    intro i j hj
    rw [length_slice (hb ▸ hj), length_slice (hc ▸ hj)]
  simp only [grouped, List.append_assoc, List.cons_append] at h
  obtain ⟨h₁, h⟩ := List.append_inj h (hlen (by omega))
  obtain ⟨h₂, h⟩ := List.append_inj (List.cons.inj h).2 (hlen (by omega))
  obtain ⟨h₃, h⟩ := List.append_inj (List.cons.inj h).2 (hlen (by omega))
  obtain ⟨h₄, h⟩ := List.append_inj (List.cons.inj h).2 (hlen (by omega))
  have h₅ := (List.cons.inj h).2
  have hwhole : ∀ {d : Bytes}, d.length = 32 →
      slice d 0 8 ++ slice d 8 12 ++ slice d 12 16 ++ slice d 16 20 ++ slice d 20 32 = d := by
    intro d hd
    rw [slice_append (by omega) (by omega), slice_append (by omega) (by omega),
      slice_append (by omega) (by omega), slice_append (by omega) (by omega), slice, List.drop_zero,
      ← hd, List.take_length]
  rw [← hwhole hb, ← hwhole hc, h₁, h₂, h₃, h₄, h₅]

theorem newSessionID_eq_iff {r₁ r₂ : Random} :
    newSessionID r₁ = newSessionID r₂ ↔ AgreeOnFree r₁.val r₂.val := by
  have hlen : ∀ r : Random, (hexString (versioned r.val)).length = 32 := by
    intro r
    rw [length_hexString, versioned, List.length_modify, List.length_modify, r.property]
  rw [← versioned_eq_iff]
  constructor
  · intro h
    exact hexString_injective (grouped_injective (hlen r₁) (hlen r₂) (congrArg Subtype.val h))
  · intro h
    exact Subtype.ext (congrArg (fun b => grouped (hexString b)) h)

/-! ## One format -/

theorem send_eq (hid : id.length = 36) (cmd : UInt8) (data : Bytes) :
    Proxy.send id cmd data = ⟨.binary, id ++ cmd :: data⟩ := by
  rw [Proxy.send, Proxy.connSend, fill_eq hid (length_make _), List.nil_append]

/-- The guard of `packet` on empty data changes nothing. -/
theorem broker_packet_eq (hid : id.length = 36) (cmd : UInt8) (data : Bytes) :
    Broker.packet id cmd data = id ++ cmd :: data := by
  have hfill : Broker.packet id cmd data = fill (make (37 + data.length)) id cmd data := by
    simp only [Broker.packet, fill]
    split
    · rfl
    · rename_i hdata
      have hnil : data = [] := List.eq_nil_of_length_eq_zero (by omega)
      subst hnil
      simp [copyInto]
  rw [hfill, fill_eq hid (length_make _)]

theorem sendPacket_eq (old : PoolBuffer) (hid : id.length = 36) (cmd : UInt8) (data : Bytes) :
    Worker.sendPacket old id cmd data =
      some ⟨.binary, id ++ cmd :: data, data.length ≤ maxPacketData⟩ := by
  simp only [Worker.sendPacket, hid, ne_eq, not_true_eq_false, ↓reduceIte]
  by_cases hpooled : data.length ≤ maxPacketData
  · have hbuf : (old.val.take (37 + data.length)).length = 37 + data.length := by
      rw [List.length_take, old.property]
      omega
    simp only [hpooled, decide_true, ↓reduceIte, fill_eq hid hbuf]
  · simp only [hpooled, decide_false, Bool.false_eq_true, ↓reduceIte, fill_eq hid (length_make _)]

theorem decode_frame (hid : id.length = 36) (cmd : UInt8) (data : Bytes) :
    decode (id ++ cmd :: data) = some ⟨id, cmd, data⟩ := by
  have hlen : 36 < (id ++ cmd :: data).length := by
    rw [List.length_append, hid, List.length_cons]
    omega
  have htake : (id ++ cmd :: data).take 36 = id := by rw [← hid, List.take_left]
  have hdrop : (id ++ cmd :: data).drop 37 = data := by
    rw [show 37 = id.length + 1 by omega, ← List.drop_drop, List.drop_left, List.drop_one,
      List.tail_cons]
  have hget : (id ++ cmd :: data)[36] = cmd := by
    rw [List.getElem_append_right (by omega)]
    simp [hid]
  rw [decode, dif_neg (by omega), htake, hdrop, hget]

/-! ## The frames of the other models -/

def ofFrame (f : Frame Id) : Decoded := ⟨f.id.val, f.cmd.code, f.payload⟩

/-- What the models of the links call a packet is what the encoders write. -/
theorem packet_on_wire (f : Frame Id) :
    packet f.id.val f.cmd f.payload = Broker.packet f.id.val f.cmd.code f.payload := by
  rw [packet_eq f.id.property, broker_packet_eq f.id.property]

theorem parseFrame_on_wire (msg : Bytes) : (WorkerProcess.parseFrame msg).map ofFrame = decode msg := by
  unfold WorkerProcess.parseFrame decode
  by_cases h : 36 < msg.length
  · rw [dif_pos h, dif_neg (by omega), Option.map_some, ofFrame, TableIsolation.code_ofByte]
  · rw [dif_neg h, dif_pos (by omega), Option.map_none]

theorem readFrame_on_wire (msg : Bytes) :
    (TableIsolation.readFrame msg).map (fun f => ⟨f.id, f.cmd.code, f.payload⟩) = decode msg := by
  unfold TableIsolation.readFrame decode
  by_cases h : msg.length < 37
  · rw [if_pos h, dif_pos h, Option.map_none]
  · have h36 : 36 < msg.length := by omega
    have hget : msg.getD 36 0 = msg[36] := by simp [h36]
    rw [if_neg h, dif_neg h, Option.map_some, TableIsolation.code_ofByte, hget]

/-- Ids are 36 bytes and as far apart as their random bytes; the three programs write
the same frames and read back what was written. -/
theorem one_wire_format :
    (∀ random, (newSessionID random).val.length = 36) ∧
    (∀ r₁ r₂, newSessionID r₁ = newSessionID r₂ ↔ AgreeOnFree r₁.val r₂.val) ∧
    ∀ (random : Random) (cmd : UInt8) (data : Bytes), ∃ frame,
      Proxy.send (newSessionID random).val cmd data = ⟨.binary, frame⟩ ∧
      Broker.packet (newSessionID random).val cmd data = frame ∧
      (∀ old, Worker.sendPacket old (newSessionID random).val cmd data =
        some ⟨.binary, frame, data.length ≤ maxPacketData⟩) ∧
      Proxy.readLoop .binary frame = some ⟨(newSessionID random).val, cmd, data⟩ ∧
      Broker.workerReader frame = some (⟨(newSessionID random).val, cmd, data⟩, frame) ∧
      Broker.proxyHandler .binary frame = some ⟨(newSessionID random).val, cmd, data⟩ ∧
      Worker.handleBrokerConnection .binary frame = some ⟨(newSessionID random).val, cmd, data⟩ := by
  refine ⟨fun random => (newSessionID random).property, fun _ _ => newSessionID_eq_iff, ?_⟩
  intro random cmd data
  have hid := (newSessionID random).property
  have hdecode := decode_frame hid cmd data
  refine ⟨(newSessionID random).val ++ cmd :: data, send_eq hid cmd data, broker_packet_eq hid cmd data,
    fun old => sendPacket_eq old hid cmd data, ?_, ?_, ?_, ?_⟩
  · rw [Proxy.readLoop, if_neg (not_not_intro rfl), hdecode]
  · rw [Broker.workerReader, hdecode, Option.map_some]
  · rw [Broker.proxyHandler, hdecode]
  · rw [Worker.handleBrokerConnection, if_neg (not_not_intro rfl), hdecode]

end SplitProxy.WireFormat
