import Mathlib.Data.List.Infix

/-!
# Frames on the broker links

A frame is a session id, one command byte and a payload. The three programs
share the command bytes; ids are kept abstract because no relay program looks
inside one.
-/
namespace SplitProxy

abbrev Payload := List UInt8

inductive Command where
  | data
  | connect
  | connected
  | close
  | error
  | udpConnect
  | udpData
  | unknown (code : UInt8)
  deriving DecidableEq, Repr

/-- `CmdData` .. `CmdUDPData`, in the order of the constants. -/
def Command.code : Command → UInt8
  | .data => 0
  | .connect => 1
  | .connected => 2
  | .close => 3
  | .error => 4
  | .udpConnect => 5
  | .udpData => 6
  | .unknown c => c

def Command.ofByte : UInt8 → Command
  | 0 => .data
  | 1 => .connect
  | 2 => .connected
  | 3 => .close
  | 4 => .error
  | 5 => .udpConnect
  | 6 => .udpData
  | c => .unknown c

/-- The two commands whose payload belongs to the tunnelled stream. -/
def Command.carriesData : Command → Bool
  | .data => true
  | .udpData => true
  | _ => false

/-- The modes of a broker session. -/
inductive Mode where
  | tcp
  | udp
  deriving DecidableEq, Repr

def Mode.connectCommand : Mode → Command
  | .tcp => .connect
  | .udp => .udpConnect

@[simp] theorem carriesData_data : Command.data.carriesData = true := rfl
@[simp] theorem carriesData_udpData : Command.udpData.carriesData = true := rfl
@[simp] theorem carriesData_connect : Command.connect.carriesData = false := rfl
@[simp] theorem carriesData_connected : Command.connected.carriesData = false := rfl
@[simp] theorem carriesData_close : Command.close.carriesData = false := rfl
@[simp] theorem carriesData_error : Command.error.carriesData = false := rfl
@[simp] theorem carriesData_udpConnect : Command.udpConnect.carriesData = false := rfl
@[simp] theorem carriesData_unknown (n : UInt8) : (Command.unknown n).carriesData = false := rfl

/-- A frame as one session sees it, its id already matched. -/
abbrev Packet := Command × Payload

structure Frame (Id : Type) where
  id : Id
  cmd : Command
  payload : Payload
  deriving DecidableEq, Repr

/-- `make(chan brokerOutbound, 4096)` in `dialBroker`. -/
def writeQueueSize : Nat := 4096

/-- `make(chan brokerWriterMessage, BrokerWriteQueue)` in the worker. -/
def brokerWriteQueue : Nat := 8192

/-- `packet`, and what `BrokerSession.send` and the worker's `sendPacket` put together: 36
bytes of id, the command byte and the data. -/
def packet (id : Payload) (cmd : Command) (data : Payload) : Payload :=
  (id ++ List.replicate 36 0).take 36 ++ cmd.code :: data

theorem packet_eq {id : Payload} (hid : id.length = 36) (cmd : Command) (data : Payload) :
    packet id cmd data = id ++ cmd.code :: data := by
  rw [packet, List.take_left' hid]

variable {Id : Type} [DecidableEq Id]

/-- The stream chunks carried by a sequence of packets. -/
def dataOf (ps : List Packet) : List Payload :=
  ps.filterMap (fun p => if p.1.carriesData then some p.2 else none)

/-- The packets of one session in a multiplexed sequence of frames. -/
def packetsOf (id : Id) (fs : List (Frame Id)) : List Packet :=
  fs.filterMap (fun f => if f.id = id then some (f.cmd, f.payload) else none)

@[simp] theorem dataOf_nil : dataOf [] = [] := rfl

@[simp] theorem dataOf_append (ps qs : List Packet) :
    dataOf (ps ++ qs) = dataOf ps ++ dataOf qs := List.filterMap_append

@[simp] theorem dataOf_single (cmd : Command) (p : Payload) :
    dataOf [(cmd, p)] = if cmd.carriesData then [p] else [] := by
  by_cases h : cmd.carriesData <;> simp [dataOf, h]

theorem dataOf_data (ds : List Payload) : dataOf (ds.map (fun d => (Command.data, d))) = ds := by
  induction ds with
  | nil => rfl
  | cons d ds ih =>
    rw [List.map_cons, ← List.singleton_append, dataOf_append, ih]
    simp

theorem mem_dataOf {d : Payload} {ps : List Packet} :
    d ∈ dataOf ps ↔ ∃ cmd, cmd.carriesData = true ∧ (cmd, d) ∈ ps := by
  simp only [dataOf, List.mem_filterMap, Option.ite_none_right_eq_some, Option.some.injEq]
  constructor
  · rintro ⟨⟨cmd, m⟩, hk, hc, rfl⟩
    exact ⟨cmd, hc, hk⟩
  · rintro ⟨cmd, hc, hk⟩
    exact ⟨(cmd, d), hk, hc, rfl⟩

@[simp] theorem packetsOf_nil (id : Id) : packetsOf id [] = [] := rfl

@[simp] theorem packetsOf_append (id : Id) (fs gs : List (Frame Id)) :
    packetsOf id (fs ++ gs) = packetsOf id fs ++ packetsOf id gs := List.filterMap_append

@[simp] theorem packetsOf_single_self (id : Id) (cmd : Command) (p : Payload) :
    packetsOf id [⟨id, cmd, p⟩] = [(cmd, p)] := by simp [packetsOf]

theorem packetsOf_single_other {id : Id} {f : Frame Id} (h : f.id ≠ id) :
    packetsOf id [f] = [] := by simp [packetsOf, h]

theorem mem_packetsOf {id : Id} {fs : List (Frame Id)} {cmd : Command} {p : Payload} :
    (cmd, p) ∈ packetsOf id fs ↔ ⟨id, cmd, p⟩ ∈ fs := by
  simp only [packetsOf, List.mem_filterMap, Option.ite_none_right_eq_some, Option.some.injEq,
    Prod.mk.injEq]
  constructor
  · rintro ⟨⟨i, c, q⟩, hf, hi, hc, hq⟩
    simp only at hi hc hq
    subst hi hc hq
    exact hf
  · intro hf
    exact ⟨_, hf, rfl, rfl, rfl⟩

theorem flatten_mono {ps qs : List Payload} (h : ps <+: qs) : ps.flatten <+: qs.flatten := by
  obtain ⟨rest, rfl⟩ := h
  rw [List.flatten_append]
  exact List.prefix_append _ _

end SplitProxy
