import SplitProxy.WireFormat

/-!
# The two directions of a target connection

`remoteReader` cuts what it reads from the target into packets, `sessionWriter`
writes the chunks of `writeCh` to the target. What the target and the link do is
given call for call.
-/
namespace SplitProxy.StreamChunks

open MessageSize (Id maxPacketData readBuffer chunks chunks_cons chunks_induction)
open WireFormat (PoolBuffer BrokerWriterMessage make copyInto decode)

/-! ## From the target -/

/-- What a read returns, and whether the select after it finds `done` or
`session.done` closed. -/
structure Read where
  bytes : Bytes
  fits : bytes.length ≤ readBuffer
  err : Bool
  stop : Bool

/-- What a call of `sendPacket` finds: a buffer of the pool, and the case its
select takes. -/
structure Attempt where
  old : PoolBuffer
  sent : Bool

/-- What a reader has put into the queue, and how often it has called `sendPacket`. -/
structure Sent where
  queue : List BrokerWriterMessage
  calls : Nat

def sendPacket (link : Nat → Attempt) (id : Id) (cmd : Command) (data : Bytes) (s : Sent) :
    Sent × Bool :=
  let call := link s.calls
  match WireFormat.Worker.sendPacket call.old id.val cmd.code data with
  | none => (⟨s.queue, s.calls + 1⟩, false)
  | some msg =>
    if call.sent then (⟨s.queue ++ [msg], s.calls + 1⟩, true)
    else (⟨s.queue, s.calls + 1⟩, false)

/-- `for len(data) > 0`, and whether `sendPacket` has taken everything. -/
def sendChunks (link : Nat → Attempt) (id : Id) (data : Bytes) (s : Sent) : Sent × Bool :=
  if 0 < data.length then
    let size := if maxPacketData < data.length then maxPacketData else data.length
    match sendPacket link id .data (data.take size) s with
    | (s, true) => sendChunks link id (data.drop size) s
    | (s, false) => (s, false)
  else (s, true)
termination_by data.length
decreasing_by
  have hmax := MessageSize.maxPacketData_pos
  rw [List.length_drop]
  split <;> omega

/-- The outer loop, and whether it has been left; else it waits for the target. -/
def readLoop (link : Nat → Attempt) (id : Id) : List Read → Bytes → Sent → Sent × Bool
  | [], _, s => (s, false)
  | r :: reads, buf, s =>
    let buf := copyInto buf 0 buf.length r.bytes
    let n := r.bytes.length
    match if 0 < n then sendChunks link id (buf.take n) s else (s, true) with
    | (s, false) => (s, true)
    | (s, true) => if r.err || r.stop then (s, true) else readLoop link id reads buf s

/-- Packets of `remoteReader`; `none` is a session that has no connection. When
the loop is left the session is closed and the broker is told so. -/
def remoteReader (link : Nat → Attempt) (id : Id) : Option (List Read) → Sent
  | none => ⟨[], 0⟩
  | some reads =>
    match readLoop link id reads (make readBuffer) ⟨[], 0⟩ with
    | (s, false) => s
    | (s, true) => (sendPacket link id .close [] s).1

/-- The reads up to the one that ends the stream. -/
def readsMade : List Read → List Read
  | [] => []
  | r :: reads => if r.err || r.stop then [r] else r :: readsMade reads

def bytesRead (reads : List Read) : Bytes := (readsMade reads).flatMap Read.bytes

/-- The payloads of the `CmdData` packets in a queue. -/
def payloads (queue : List BrokerWriterMessage) : List Bytes :=
  queue.filterMap fun msg => (decode msg.data).bind fun d =>
    if d.cmd = Command.data.code then some d.payload else none

/-- Nothing is lost before a call of `sendPacket` returns false. -/
structure ReadsChunks (link : Nat → Attempt) (id : Id) (reads : List Read)
    (queue : List BrokerWriterMessage) : Prop where
  ids : ∀ msg ∈ queue, ∃ d, decode msg.data = some d ∧ d.id = id.val
  sizes : ∀ p ∈ payloads queue, p ≠ [] ∧ p.length ≤ maxPacketData
  inOrder : (payloads queue).flatten <+: bytesRead reads
  complete : (payloads queue).flatten = bytesRead reads ∨
    (link (payloads queue).length).sent = false

/-! ## To the target -/

/-- What `conn.Write` returns. -/
structure WriteResult (data : Bytes) where
  n : Int
  fits : n ≤ data.length
  err : Bool

/-- What the select of `sessionWriter` takes, and for a chunk whether there is a
connection and a deadline can be set. -/
inductive Turn where
  | done
  | chunk (data : Bytes) (conn deadline : Bool)
  deriving DecidableEq, Repr

/-- A call of `conn.Write`, with the bytes that went out. -/
structure WriteCall where
  bytes : Bytes
  n : Int
  err : Bool
  deriving DecidableEq, Repr

inductive WriterEnd where
  | selecting
  | returned
  | sessionClosed
  deriving DecidableEq, Repr

/-- `for len(data) > 0`, and whether it came to its end. -/
def writeChunk (target : Nat → (data : Bytes) → WriteResult data) (data : Bytes)
    (calls : List WriteCall) : List WriteCall × Bool :=
  if 0 < data.length then
    let result := target calls.length data
    let log := calls ++ [⟨data.take result.n.toNat, result.n, result.err⟩]
    if result.err then (log, false)
    else if result.n ≤ 0 then (log, false)
    else writeChunk target (data.drop result.n.toNat) log
  else (calls, true)
termination_by data.length
decreasing_by
  have hpos : ¬(target calls.length data).n ≤ 0 := by assumption
  rw [List.length_drop]
  omega

def sessionWriter (target : Nat → (data : Bytes) → WriteResult data) :
    List Turn → List WriteCall → List WriteCall × WriterEnd
  | [], calls => (calls, .selecting)
  | .done :: _, calls => (calls, .returned)
  | .chunk data conn deadline :: turns, calls =>
    if !conn then (calls, .returned)
    else if !deadline then (calls, .sessionClosed)
    else
      match writeChunk target data calls with
      | (calls, false) => (calls, .sessionClosed)
      | (calls, true) => sessionWriter target turns calls

/-- The chunks that come to be written if no write fails. -/
def chunksTaken : List Turn → List Bytes
  | .chunk data true true :: turns => data :: chunksTaken turns
  | _ => []

def written (calls : List WriteCall) : Bytes := calls.flatMap WriteCall.bytes

/-- Everything is written in order up to the first call that fails. -/
structure WritesChunks (all : Bytes) (calls : List WriteCall) : Prop where
  inOrder : written calls <+: all
  stops : ∀ c ∈ calls.dropLast, c.err = false ∧ 1 ≤ c.n
  complete : written calls = all ∨ ∃ c, calls.getLast? = some c ∧ (c.err = true ∨ c.n < 1)
  ends : calls.length ≤ all.length

/-! ## The packets of a stream -/

variable {link : Nat → Attempt} {id : Id} {data : Bytes} {s : Sent}

/-- The message of a packet. -/
def message (id : Id) (cmd : Command) (data : Bytes) : BrokerWriterMessage :=
  ⟨.binary, id.val ++ cmd.code :: data, data.length ≤ maxPacketData⟩

theorem sendPacket_eq (cmd : Command) (data : Bytes) (s : Sent) :
    sendPacket link id cmd data s =
      if (link s.calls).sent then (⟨s.queue ++ [message id cmd data], s.calls + 1⟩, true)
      else (⟨s.queue, s.calls + 1⟩, false) := by
  rw [sendPacket, WireFormat.sendPacket_eq _ id.property]
  rfl

/-- The chunks the link takes before it refuses one. -/
def taken (link : Nat → Attempt) : Nat → List Bytes → List Bytes
  | _, [] => []
  | k, chunk :: rest => if (link k).sent then chunk :: taken link (k + 1) rest else []

theorem taken_begins (link : Nat → Attempt) (k : Nat) (cs : List Bytes) : taken link k cs <+: cs := by
  induction cs generalizing k with
  | nil => exact List.prefix_refl []
  | cons c cs ih =>
    rw [taken]
    split
    · exact (List.prefix_cons_inj c).mpr (ih (k + 1))
    · exact List.nil_prefix

theorem taken_refused (link : Nat → Attempt) (k : Nat) (cs : List Bytes) :
    taken link k cs = cs ∨ (link (k + (taken link k cs).length)).sent = false := by
  induction cs generalizing k with
  | nil => exact Or.inl rfl
  | cons c cs ih =>
    rw [taken]
    by_cases h : (link k).sent = true
    · rw [if_pos h]
      rcases ih (k + 1) with hall | hno
      · exact Or.inl (by rw [hall])
      · refine Or.inr ?_
        rw [List.length_cons, Nat.add_comm _ 1, ← Nat.add_assoc]
        exact hno
    · rw [if_neg h]
      exact Or.inr (Bool.not_eq_true _ ▸ h)

theorem taken_append (k : Nat) (cs ds : List Bytes) :
    taken link k (cs ++ ds) =
      if taken link k cs = cs then cs ++ taken link (k + cs.length) ds else taken link k cs := by
  induction cs generalizing k with
  | nil => rfl
  | cons c cs ih =>
    have hk : k + 1 + cs.length = k + (c :: cs).length := by
      rw [List.length_cons]
      omega
    rw [List.cons_append, taken, taken, ih, hk]
    by_cases h : (link k).sent = true
    · rw [if_pos h, if_pos h]
      by_cases hall : taken link (k + 1) cs = cs
      · rw [if_pos hall, if_pos (by rw [hall]), List.cons_append]
      · rw [if_neg hall, if_neg fun he => hall (List.cons.inj he).2]
    · rw [if_neg h, if_neg h, if_neg nofun]

/-- The chunks are queued until one is refused. -/
structure Queues (link : Nat → Attempt) (id : Id) (cs : List Bytes) (s : Sent) (out : Sent × Bool) :
    Prop where
  queue : out.1.queue = s.queue ++ (taken link s.calls cs).map (message id .data)
  all : out.2 = true → taken link s.calls cs = cs ∧ out.1.calls = s.calls + cs.length
  refused : out.2 = false → taken link s.calls cs ≠ cs

theorem Queues.nil (s : Sent) : Queues link id [] s (s, true) :=
  ⟨(List.append_nil _).symm, fun _ => ⟨rfl, rfl⟩, nofun⟩

theorem Queues.refuse {c : Bytes} {cs : List Bytes} (h : (link s.calls).sent = false) :
    Queues link id (c :: cs) s (⟨s.queue, s.calls + 1⟩, false) := by
  have hnone : taken link s.calls (c :: cs) = [] := by rw [taken, h]; rfl
  refine ⟨?_, nofun, fun _ => ?_⟩
  · rw [hnone]
    exact (List.append_nil _).symm
  · rw [hnone]
    exact nofun

theorem Queues.cons {c : Bytes} {cs : List Bytes} {out : Sent × Bool} (h : (link s.calls).sent = true)
    (hout : Queues link id cs ⟨s.queue ++ [message id .data c], s.calls + 1⟩ out) :
    Queues link id (c :: cs) s out := by
  have hcons : taken link s.calls (c :: cs) = c :: taken link (s.calls + 1) cs := by
    rw [taken, if_pos h]
  refine ⟨?_, fun ho => ?_, fun ho => ?_⟩
  · rw [hcons, hout.queue, List.map_cons, List.append_assoc]
    rfl
  · obtain ⟨hall, hcalls⟩ := hout.all ho
    have hcount : out.1.calls = s.calls + 1 + cs.length := hcalls
    refine ⟨by rw [hcons, hall], ?_⟩
    rw [hcount, List.length_cons]
    omega
  · rw [hcons]
    exact fun he => hout.refused ho (List.cons.inj he).2

theorem sendChunks_pos (hd : 0 < data.length) (s : Sent) :
    sendChunks link id data s =
      if (link s.calls).sent then
        sendChunks link id (data.drop maxPacketData)
          ⟨s.queue ++ [message id .data (data.take maxPacketData)], s.calls + 1⟩
      else (⟨s.queue, s.calls + 1⟩, false) := by
  have hsize : data.take (if maxPacketData < data.length then maxPacketData else data.length) =
      data.take maxPacketData ∧
      data.drop (if maxPacketData < data.length then maxPacketData else data.length) =
        data.drop maxPacketData := by
    split
    · exact ⟨rfl, rfl⟩
    · rename_i hlt
      have hle : data.length ≤ maxPacketData := Nat.le_of_not_lt hlt
      rw [List.take_length, List.drop_length, List.take_of_length_le hle,
        List.drop_of_length_le hle]
      exact ⟨rfl, rfl⟩
  rw [sendChunks, if_pos hd]
  dsimp only
  rw [hsize.1, hsize.2, sendPacket_eq]
  by_cases h : (link s.calls).sent = true
  · rw [if_pos h, if_pos h]
  · rw [if_neg h, if_neg h]

theorem sendChunks_queues (link : Nat → Attempt) (id : Id) (data : Bytes) (s : Sent) :
    Queues link id (chunks data) s (sendChunks link id data s) := by
  induction data using chunks_induction generalizing s with
  | hnil =>
    rw [sendChunks]
    exact Queues.nil s
  | hcons data hd ih =>
    rw [chunks_cons hd, sendChunks_pos hd]
    by_cases hsent : (link s.calls).sent = true
    · rw [if_pos hsent]
      exact Queues.cons hsent (ih _)
    · rw [if_neg hsent]
      exact Queues.refuse (Bool.not_eq_true _ ▸ hsent)

/-- The chunks of all the reads that are made. -/
def allChunks (reads : List Read) : List Bytes := (readsMade reads).flatMap fun r => chunks r.bytes

theorem read_buffer {buf bytes : Bytes} (h : bytes.length ≤ buf.length) :
    (copyInto buf 0 buf.length bytes).take bytes.length = bytes := by
  have htake : bytes.take (buf.length - 0) = bytes := List.take_of_length_le h
  rw [copyInto, htake, List.take_zero, List.nil_append, List.take_left]

theorem readLoop_queue (link : Nat → Attempt) (id : Id) (reads : List Read) {buf : Bytes}
    (hbuf : buf.length = readBuffer) (s : Sent) :
    (readLoop link id reads buf s).1.queue =
      s.queue ++ (taken link s.calls (allChunks reads)).map (message id .data) := by
  induction reads generalizing buf s with
  | nil => exact (List.append_nil _).symm
  | cons r reads ih =>
    have hfits : r.bytes.length ≤ buf.length := hbuf ▸ r.fits
    have hread : (if 0 < r.bytes.length then
        sendChunks link id ((copyInto buf 0 buf.length r.bytes).take r.bytes.length) s
        else (s, true)) = sendChunks link id r.bytes s := by
      split
      · rw [read_buffer hfits]
      · rename_i hempty
        rw [sendChunks, if_neg hempty]
    have hbuf' : (copyInto buf 0 buf.length r.bytes).length = readBuffer := by
      simp only [copyInto, List.length_append, List.length_take, List.length_drop]
      omega
    have hout := sendChunks_queues link id r.bytes s
    have hall : allChunks (r :: reads) = chunks r.bytes ++
        if r.err || r.stop then [] else allChunks reads := by
      rw [allChunks, readsMade]
      split <;> rfl
    rw [readLoop, hread, hall, taken_append]
    rcases hs : sendChunks link id r.bytes s with ⟨t, ok⟩
    rw [hs] at hout
    cases ok with
    | false =>
      rw [if_neg (hout.refused rfl)]
      exact hout.queue
    | true =>
      obtain ⟨htaken, hcalls⟩ := hout.all rfl
      have hqueue := hout.queue
      rw [htaken] at hqueue
      rw [if_pos htaken]
      by_cases hend : (r.err || r.stop) = true
      · rw [if_pos hend]
        simp only [hend, ↓reduceIte, taken, List.append_nil]
        exact hqueue
      · simp only [hend, Bool.false_eq_true, ↓reduceIte]
        rw [ih hbuf', hqueue, hcalls, List.map_append, List.append_assoc]

theorem flatten_allChunks (reads : List Read) : (allChunks reads).flatten = bytesRead reads := by
  rw [allChunks, bytesRead]
  induction readsMade reads with
  | nil => rfl
  | cons r reads ih =>
    rw [List.flatMap_cons, List.flatten_append, MessageSize.flatten_chunks, ih, List.flatMap_cons]

theorem decode_message (cmd : Command) (data : Bytes) :
    decode (message id cmd data).data = some ⟨id.val, cmd.code, data⟩ :=
  WireFormat.decode_frame id.property cmd.code data

theorem payloads_data (cs : List Bytes) : payloads (cs.map (message id .data)) = cs := by
  induction cs with
  | nil => rfl
  | cons c cs ih =>
    rw [List.map_cons, payloads, List.filterMap_cons, decode_message, Option.bind_some, if_pos rfl]
    exact congrArg (c :: ·) ih

theorem payloads_close (data : Bytes) : payloads [message id .close data] = [] := by
  have hne : Command.close.code ≠ Command.data.code := by decide
  rw [payloads, List.filterMap_cons, decode_message, Option.bind_some, if_neg hne]
  rfl

theorem remoteReader_queue (link : Nat → Attempt) (id : Id) (reads : List Read) :
    ∃ tail, (remoteReader link id (some reads)).queue =
      (taken link 0 (allChunks reads)).map (message id .data) ++ tail ∧
      (tail = [] ∨ tail = [message id .close []]) := by
  have hloop := readLoop_queue link id reads (WireFormat.length_make readBuffer) ⟨[], 0⟩
  rw [remoteReader]
  rcases hl : readLoop link id reads (make readBuffer) ⟨[], 0⟩ with ⟨t, ok⟩
  rw [hl] at hloop
  have hqueue : t.queue = (taken link 0 (allChunks reads)).map (message id .data) := hloop
  cases ok with
  | false => exact ⟨[], hqueue.trans (List.append_nil _).symm, Or.inl rfl⟩
  | true =>
    dsimp only
    rw [sendPacket_eq, hqueue]
    split
    · exact ⟨_, rfl, Or.inr rfl⟩
    · exact ⟨[], (List.append_nil _).symm, Or.inl rfl⟩

theorem remoteReader_reads (link : Nat → Attempt) (id : Id) (reads : List Read) :
    ReadsChunks link id reads (remoteReader link id (some reads)).queue := by
  obtain ⟨tail, hqueue, htail⟩ := remoteReader_queue link id reads
  have hpayloads : payloads (remoteReader link id (some reads)).queue =
      taken link 0 (allChunks reads) := by
    have hnone : payloads tail = [] := by
      rcases htail with rfl | rfl
      · rfl
      · exact payloads_close []
    rw [hqueue, payloads, List.filterMap_append]
    exact (congrArg₂ (· ++ ·) (payloads_data _) hnone).trans (List.append_nil _)
  have hstart := taken_begins link 0 (allChunks reads)
  refine ⟨fun msg hmsg => ?_, fun p hp => ?_, ?_, ?_⟩
  · rw [hqueue] at hmsg
    rcases List.mem_append.mp hmsg with hmsg | hmsg
    · obtain ⟨c, -, rfl⟩ := List.mem_map.mp hmsg
      exact ⟨_, decode_message .data c, rfl⟩
    · rcases htail with rfl | rfl
      · cases hmsg
      · rw [List.mem_singleton.mp hmsg]
        exact ⟨_, decode_message .close [], rfl⟩
  · rw [hpayloads] at hp
    obtain ⟨r, -, hchunk⟩ := List.mem_flatMap.mp (hstart.subset hp)
    exact ⟨MessageSize.chunk_ne_nil hchunk, MessageSize.length_chunk hchunk⟩
  · rw [hpayloads, ← flatten_allChunks]
    exact hstart.flatten
  · rw [hpayloads, ← flatten_allChunks]
    rcases taken_refused link 0 (allChunks reads) with hall | hno
    · exact Or.inl (by rw [hall])
    · rw [Nat.zero_add] at hno
      exact Or.inr hno

theorem readsMade_eq {reads : List Read} (h : ∀ r ∈ reads.dropLast, (r.err || r.stop) = false) :
    readsMade reads = reads := by
  induction reads with
  | nil => rfl
  | cons r reads ih =>
    rw [readsMade]
    cases reads with
    | nil => split <;> rfl
    | cons r' reads =>
      rw [List.dropLast_cons_cons] at h
      have hr := h r List.mem_cons_self
      have hrest := ih fun x hx => h x (List.mem_cons_of_mem r hx)
      rw [hr, hrest]
      rfl

/-- On a link that is up all bytes are queued, those of a last read with an error too. -/
theorem all_bytes_queued {reads : List Read} (hup : ∀ k, (link k).sent = true)
    (hlast : ∀ r ∈ reads.dropLast, (r.err || r.stop) = false) :
    (payloads (remoteReader link id (some reads)).queue).flatten = reads.flatMap Read.bytes := by
  rcases (remoteReader_reads link id reads).complete with hall | hno
  · rw [hall, bytesRead, readsMade_eq hlast]
  · rw [hup] at hno
    cases hno

/-- A read adds packets as the system of the links has them, in the order of its chunks. -/
theorem sendChunks_packets (data : Bytes) (s : Sent) :
    ∃ n, (sendChunks link id data s).1.queue.map BrokerWriterMessage.data =
      s.queue.map BrokerWriterMessage.data ++
        ((chunks data).take n).map fun chunk => packet id.val .data chunk := by
  refine ⟨(taken link s.calls (chunks data)).length, ?_⟩
  rw [(sendChunks_queues link id data s).queue, List.map_append, List.map_map,
    ← List.prefix_iff_eq_take.mp (taken_begins link s.calls (chunks data))]
  simp only [packet_eq id.property]
  rfl

/-! ## The calls of a writer -/

def WriteCall.Ok (c : WriteCall) : Prop := c.err = false ∧ 1 ≤ c.n

theorem WritesChunks.nil : WritesChunks [] [] :=
  ⟨List.prefix_refl _, nofun, Or.inl rfl, Nat.le_refl _⟩

/-- Data that has been written in full, and what is written after it. -/
theorem WritesChunks.append {done all : Bytes} {calls more : List WriteCall}
    (hok : ∀ c ∈ calls, c.Ok) (hdone : written calls = done) (hlen : calls.length ≤ done.length)
    (h : WritesChunks all more) : WritesChunks (done ++ all) (calls ++ more) where
  inOrder := by
    rw [written, List.flatMap_append]
    exact hdone ▸ (List.prefix_append_right_inj _).mpr h.inOrder
  stops := by
    intro c hc
    rw [List.dropLast_append] at hc
    split at hc
    · exact hok c (List.mem_of_mem_dropLast hc)
    · rcases List.mem_append.mp hc with hc | hc
      · exact hok c hc
      · exact h.stops c hc
  complete := by
    rcases h.complete with hall | ⟨c, hlast, hc⟩
    · refine Or.inl ?_
      rw [written, List.flatMap_append]
      exact congrArg₂ (· ++ ·) hdone hall
    · refine Or.inr ⟨c, ?_, hc⟩
      rw [List.getLast?_append, hlast]
      rfl
  ends := by
    rw [List.length_append, List.length_append]
    exact Nat.add_le_add hlen h.ends

/-- The calls of the inner loop, and how it ends. -/
structure WritesChunk (data : Bytes) (calls : List WriteCall) (done : Bool) : Prop where
  writes : WritesChunks data calls
  all : done = true → (∀ c ∈ calls, c.Ok) ∧ written calls = data
  failed : done = false → ∃ c, calls.getLast? = some c ∧ (c.err = true ∨ c.n < 1)

theorem WritesChunk.nil : WritesChunk [] [] true :=
  ⟨.nil, fun _ => ⟨nofun, rfl⟩, nofun⟩

/-- A call that fails is the last one. -/
theorem WritesChunk.fail {data : Bytes} {c : WriteCall} (hpre : c.bytes <+: data)
    (hpos : 0 < data.length) (hc : c.err = true ∨ c.n < 1) : WritesChunk data [c] false where
  writes := by
    refine ⟨?_, nofun, Or.inr ⟨c, rfl, hc⟩, hpos⟩
    rw [written, List.flatMap_singleton]
    exact hpre
  all := nofun
  failed := fun _ => ⟨c, rfl, hc⟩

/-- A call that writes something, and those for the rest of the data. -/
theorem WritesChunk.cons {rest : Bytes} {c : WriteCall} {calls : List WriteCall} {done : Bool}
    (hok : c.Ok) (hpos : 0 < c.bytes.length) (h : WritesChunk rest calls done) :
    WritesChunk (c.bytes ++ rest) (c :: calls) done where
  writes := by
    have hgood : ∀ x ∈ [c], x.Ok := by
      intro x hx
      rw [List.mem_singleton.mp hx]
      exact hok
    exact WritesChunks.append hgood (List.flatMap_singleton _ _) hpos h.writes
  all := by
    intro hdone
    obtain ⟨hgood, hwritten⟩ := h.all hdone
    refine ⟨fun x hx => ?_, ?_⟩
    · rcases List.mem_cons.mp hx with rfl | hx
      · exact hok
      · exact hgood x hx
    · rw [written, List.flatMap_cons]
      exact congrArg (c.bytes ++ ·) hwritten
  failed := by
    intro hfail
    obtain ⟨x, hlast, hx⟩ := h.failed hfail
    refine ⟨x, ?_, hx⟩
    rw [List.getLast?_cons, hlast]
    rfl

/-- After a failure nothing of the later chunks is written. -/
theorem WritesChunk.stop {data later : Bytes} {calls : List WriteCall} (h : WritesChunk data calls false) :
    WritesChunks (data ++ later) calls where
  inOrder := h.writes.inOrder.trans (List.prefix_append _ _)
  stops := h.writes.stops
  complete := Or.inr (h.failed rfl)
  ends := by
    have hle := h.writes.ends
    rw [List.length_append]
    omega

variable (target : Nat → (data : Bytes) → WriteResult data)

theorem writeChunk_calls (data : Bytes) (calls : List WriteCall) :
    ∃ new, (writeChunk target data calls).1 = calls ++ new ∧
      WritesChunk data new (writeChunk target data calls).2 := by
  fun_induction writeChunk target data calls with
  | case1 data calls hd result log herr =>
    exact ⟨_, rfl, .fail (List.take_prefix _ _) hd (Or.inl herr)⟩
  | case2 data calls hd result log herr hn =>
    exact ⟨_, rfl, .fail (List.take_prefix _ _) hd (Or.inr (Int.lt_add_one_of_le hn))⟩
  | case3 data calls hd result log herr hn ih =>
    obtain ⟨new, hnew, hw⟩ := ih
    have hsome : 0 < (data.take result.n.toNat).length := by
      rw [List.length_take]
      omega
    have hok : WriteCall.Ok ⟨data.take result.n.toNat, result.n, result.err⟩ :=
      ⟨Bool.not_eq_true _ ▸ herr, Int.not_le.mp hn⟩
    have hcons := hw.cons hok hsome
    rw [List.take_append_drop] at hcons
    exact ⟨_, hnew.trans (List.append_assoc _ _ _), hcons⟩
  | case4 data calls hd =>
    have hempty : data = [] := List.eq_nil_of_length_eq_zero (by omega)
    subst hempty
    exact ⟨[], (List.append_nil _).symm, .nil⟩

theorem sessionWriter_calls (turns : List Turn) (calls : List WriteCall) :
    ∃ new, (sessionWriter target turns calls).1 = calls ++ new ∧
      WritesChunks (chunksTaken turns).flatten new := by
  induction turns generalizing calls with
  | nil => exact ⟨[], (List.append_nil _).symm, .nil⟩
  | cons turn turns ih =>
    cases turn with
    | done => exact ⟨[], (List.append_nil _).symm, .nil⟩
    | chunk data conn deadline =>
      rw [sessionWriter]
      cases conn with
      | false => exact ⟨[], (List.append_nil _).symm, .nil⟩
      | true =>
        cases deadline with
        | false => exact ⟨[], (List.append_nil _).symm, .nil⟩
        | true =>
          simp only [Bool.not_true, Bool.false_eq_true, ↓reduceIte, chunksTaken, List.flatten_cons]
          obtain ⟨new, hnew, hw⟩ := writeChunk_calls target data calls
          rcases hc : writeChunk target data calls with ⟨log, done⟩
          rw [hc] at hnew hw
          cases done with
          | false => exact ⟨new, hnew, hw.stop⟩
          | true =>
            obtain ⟨more, hmore, hrest⟩ := ih log
            obtain ⟨hok, hall⟩ := hw.all rfl
            refine ⟨new ++ more, ?_, WritesChunks.append hok hall ?_ hrest⟩
            · rw [← List.append_assoc, ← hnew]
              exact hmore
            · exact hw.writes.ends

/-- What comes from the target is queued, and what is queued for it is written. -/
theorem chunks_lossless (link : Nat → Attempt) (id : Id) (reads : List Read)
    (target : Nat → (data : Bytes) → WriteResult data) (turns : List Turn) :
    ReadsChunks link id reads (remoteReader link id (some reads)).queue ∧
      WritesChunks (chunksTaken turns).flatten (sessionWriter target turns []).1 := by
  refine ⟨remoteReader_reads link id reads, ?_⟩
  obtain ⟨new, hnew, hwrites⟩ := sessionWriter_calls target turns []
  rw [hnew]
  exact hwrites

end SplitProxy.StreamChunks
