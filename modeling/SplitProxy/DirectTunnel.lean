import SplitProxy.CopyLoop
import SplitProxy.HandleConn

/-!
# Direct tunnels

`handleDirect` from the moment the target is connected and the client has been
told so: two `io.Copy` goroutines, the channel they report to, and the handler
that closes both connections once one of them has reported.
-/
namespace SplitProxy.DirectTunnel

open Runs CopyLoop
open HandleConn (Direction)

/-- The buffer `io.Copy` allocates. -/
def copyBuffer : Nat := 32 * 1024

/-- A connection as the goroutine sees it that reads from it. -/
structure Conn where
  /-- what the peer sends -/
  stream : Fifo UInt8
  /-- how much of it the `bufio.Reader` or the TLS layer has taken from the socket -/
  buffered : Nat
  ended : Bool
  broken : Bool
  closed : Bool

namespace Conn

/-- A connection whose reader holds `early`. -/
def start (early : Bytes) : Conn := ⟨Fifo.empty.pushMany early, early.length, false, false, false⟩

/-- What `Read` may return: `n` bytes, and `last` besides. -/
def Readable (c : Conn) (n : Nat) (last : Option End) : Prop :=
  n ≤ copyBuffer ∧ n ≤ c.stream.queue.length ∧ (c.closed = false ∨ n ≤ c.buffered) ∧
    match last with
    | none => 0 < n
    | some .eof => c.ended = true ∧ n = c.stream.queue.length
    | some .failed => c.closed = true ∨ c.broken = true

instance (c : Conn) (n : Nat) (last : Option End) : Decidable (c.Readable n last) := by
  unfold Readable
  rcases last with _ | _ | _ <;> infer_instance

/-- A call on the connection may return an error. -/
def Faulty (c : Conn) : Prop := c.closed = true ∨ c.broken = true

instance (c : Conn) : Decidable c.Faulty := inferInstanceAs (Decidable (_ ∨ _))

def take (c : Conn) (n : Nat) : Conn :=
  { c with stream := c.stream.popMany n, buffered := c.buffered - n }

end Conn

/-- Where `handleDirect` stands; its deferred `server.Close()` closes once more. -/
inductive Pc where
  | waiting
  | closingClient
  | closingServer
  | returned
  deriving DecidableEq, Repr

/-- `conn d` is the connection the copy of direction `d` reads from. -/
structure Tunnel where
  username : Bytes
  conn : Direction → Conn
  copy : Direction → Copier UInt8
  signalled : Direction → Bool
  /-- what is in the channel `done` -/
  done : Nat
  pc : Pc

/-- The connection of the other peer. -/
def other : Direction → Direction
  | .clientToTarget => .targetToClient
  | .targetToClient => .clientToTarget

inductive Event where
  | peerSends (d : Direction) (bytes : Bytes)
  | peerEnds (d : Direction)
  | breaks (d : Direction)
  | fill (d : Direction) (n : Nat)
  | read (d : Direction) (n : Nat) (last : Option End)
  | writeSome (d : Direction) (n : Nat)
  | writeDone (d : Direction)
  | writeFailed (d : Direction)
  | signal (d : Direction)
  | receive
  | closeClient
  | closeServer
  deriving DecidableEq, Repr

namespace Tunnel

/-- `early` is what the client has sent behind its request and the reader holds. -/
def start (username early : Bytes) : Tunnel :=
  { username
    conn := fun d => match d with
      | .clientToTarget => .start early
      | .targetToClient => .start []
    copy := fun _ => .start
    signalled := fun _ => false
    done := 0
    pc := .waiting }

def setConn (t : Tunnel) (d : Direction) (c : Conn) : Tunnel :=
  { t with conn := Function.update t.conn d c }

def setCopy (t : Tunnel) (d : Direction) (c : Copier UInt8) : Tunnel :=
  { t with copy := Function.update t.copy d c }

def close (t : Tunnel) (d : Direction) : Tunnel := t.setConn d { t.conn d with closed := true }

def step (t : Tunnel) : Event → Option Tunnel
  | .peerSends d bytes =>
    if (t.conn d).ended = true then none
    else some (t.setConn d { t.conn d with stream := (t.conn d).stream.pushMany bytes })
  | .peerEnds d => some (t.setConn d { t.conn d with ended := true })
  | .breaks d => some (t.setConn d { t.conn d with broken := true })
  | .fill d n =>
    if (t.conn d).closed = true then none
    else some (t.setConn d { t.conn d with buffered := (t.conn d).buffered + n })
  | .read d n last =>
    if (t.conn d).Readable n last then
      ((t.copy d).fetch ((t.conn d).stream.queue.take n) last).map fun c =>
        (t.setConn d ((t.conn d).take n)).setCopy d c
    else none
  | .writeSome d n =>
    if (t.conn (other d)).closed = true then none else ((t.copy d).put n).map (t.setCopy d)
  | .writeDone d => ((t.copy d).complete).map (t.setCopy d)
  | .writeFailed d =>
    if (t.conn (other d)).Faulty then ((t.copy d).fail).map (t.setCopy d) else none
  | .signal d =>
    if (t.copy d).phase.finished = true ∧ t.signalled d = false then
      some { t with signalled := Function.update t.signalled d true, done := t.done + 1 }
    else none
  | .receive =>
    if t.pc = .waiting ∧ 0 < t.done then some { t with done := t.done - 1, pc := .closingClient }
    else none
  | .closeClient =>
    if t.pc = .closingClient then some { t.close .clientToTarget with pc := .closingServer }
    else none
  | .closeServer =>
    if t.pc = .closingServer then some { t.close .targetToClient with pc := .returned } else none

end Tunnel

structure State where
  tunnels : List Tunnel

def initial : State := ⟨[]⟩

inductive ProxyEvent where
  | start (username early : Bytes)
  | act (i : Nat) (e : Event)
  deriving DecidableEq, Repr

def step (s : State) : ProxyEvent → Option State
  | .start username early => some ⟨s.tunnels ++ [.start username early]⟩
  | .act i e =>
    (s.tunnels[i]?).bind fun t => (t.step e).map fun u => ⟨s.tunnels.set i u⟩

/-! ## What a step can do -/

@[simp] theorem other_other (d : Direction) : other (other d) = d := by cases d <;> rfl

theorem other_ne (d : Direction) : other d ≠ d := by cases d <;> simp [other]

namespace Conn

variable {c : Conn} {n : Nat} {last : Option End}

/-- What a connection keeps while its peer and its layers act. -/
structure Grows (c c' : Conn) : Prop where
  taken : c'.stream.taken = c.stream.taken
  sent : c.stream.sent <+: c'.stream.sent
  ended : c.ended = true → c'.ended = true ∧ c'.stream = c.stream
  closed : c'.closed = c.closed
  broken : c.broken = true → c'.broken = true

theorem Readable.eof (h : c.Readable n (some .eof)) :
    c.ended = true ∧ (c.take n).stream.queue = [] := by
  obtain ⟨-, -, -, hended, hn⟩ := h
  refine ⟨hended, ?_⟩
  rw [take, Fifo.popMany_queue, hn, List.drop_length]

end Conn

namespace Tunnel

/-- The step is one of the goroutines of `handleDirect`, not of a peer or the network. -/
def own : Event → Bool
  | .peerSends _ _ | .peerEnds _ | .breaks _ | .fill _ _ => false
  | _ => true

/-- The inversion of `step`. -/
inductive Move (t : Tunnel) : Event → Tunnel → Prop
  | peer {e : Event} (d : Direction) (c : Conn) (hown : own e = false)
      (hgrows : (t.conn d).Grows c) (hbroken : e ≠ .breaks d → c.broken = (t.conn d).broken) :
      Move t e (t.setConn d c)
  | read {d : Direction} {n : Nat} {last : Option End} {c : Copier UInt8}
      (hreadable : (t.conn d).Readable n last)
      (hfetch : (t.copy d).fetch ((t.conn d).stream.queue.take n) last = some c) :
      Move t (.read d n last) ((t.setConn d ((t.conn d).take n)).setCopy d c)
  | writeSome {d : Direction} {n : Nat} {c : Copier UInt8}
      (hopen : (t.conn (other d)).closed = false) (hput : (t.copy d).put n = some c) :
      Move t (.writeSome d n) (t.setCopy d c)
  | writeDone {d : Direction} {c : Copier UInt8} (hcomplete : (t.copy d).complete = some c) :
      Move t (.writeDone d) (t.setCopy d c)
  | writeFailed {d : Direction} {c : Copier UInt8} (hfaulty : (t.conn (other d)).Faulty)
      (hfail : (t.copy d).fail = some c) : Move t (.writeFailed d) (t.setCopy d c)
  | signal {d : Direction} (hfinished : (t.copy d).phase.finished = true)
      (hnot : t.signalled d = false) :
      Move t (.signal d)
        { t with signalled := Function.update t.signalled d true, done := t.done + 1 }
  | receive (hpc : t.pc = .waiting) (hdone : 0 < t.done) :
      Move t .receive { t with done := t.done - 1, pc := .closingClient }
  | closeClient (hpc : t.pc = .closingClient) :
      Move t .closeClient { t.close .clientToTarget with pc := .closingServer }
  | closeServer (hpc : t.pc = .closingServer) :
      Move t .closeServer { t.close .targetToClient with pc := .returned }

theorem step_move {t u : Tunnel} {e : Event} (h : t.step e = some u) : Move t e u := by
  cases e with
  | peerSends d bytes =>
    simp only [step] at h
    split at h
    · cases h
    · rename_i hended
      cases h
      refine .peer d _ rfl ⟨rfl, List.prefix_append _ _, fun hc => absurd hc hended, rfl, id⟩ ?_
      exact fun _ => rfl
  | peerEnds d =>
    cases h
    exact .peer d _ rfl ⟨rfl, List.prefix_rfl, fun _ => ⟨rfl, rfl⟩, rfl, id⟩ fun _ => rfl
  | breaks d =>
    cases h
    refine .peer d _ rfl ⟨rfl, List.prefix_rfl, fun hc => ⟨hc, rfl⟩, rfl, fun _ => rfl⟩ ?_
    exact fun hne => absurd rfl hne
  | fill d n =>
    simp only [step] at h
    split at h
    · cases h
    · cases h
      exact .peer d _ rfl ⟨rfl, List.prefix_rfl, fun hc => ⟨hc, rfl⟩, rfl, id⟩ fun _ => rfl
  | read d n last =>
    simp only [step] at h
    split at h
    · rename_i hreadable
      obtain ⟨c, hfetch, rfl⟩ := Option.map_eq_some_iff.mp h
      exact .read hreadable hfetch
    · cases h
  | writeSome d n =>
    simp only [step] at h
    split at h
    · cases h
    · rename_i hopen
      obtain ⟨c, hput, rfl⟩ := Option.map_eq_some_iff.mp h
      exact .writeSome (Bool.eq_false_iff.mpr hopen) hput
  | writeDone d =>
    obtain ⟨c, hcomplete, rfl⟩ := Option.map_eq_some_iff.mp h
    exact .writeDone hcomplete
  | writeFailed d =>
    simp only [step] at h
    split at h
    · rename_i hfaulty
      obtain ⟨c, hfail, rfl⟩ := Option.map_eq_some_iff.mp h
      exact .writeFailed hfaulty hfail
    · cases h
  | signal d =>
    simp only [step] at h
    split at h
    · rename_i hc
      cases h
      exact .signal hc.1 hc.2
    · cases h
  | receive =>
    simp only [step] at h
    split at h
    · rename_i hc
      cases h
      exact .receive hc.1 hc.2
    · cases h
  | closeClient =>
    simp only [step] at h
    split at h
    · rename_i hc
      cases h
      exact .closeClient hc
    · cases h
  | closeServer =>
    simp only [step] at h
    split at h
    · rename_i hc
      cases h
      exact .closeServer hc
    · cases h

/-! ## What a tunnel keeps -/

/-- One direction: the copy has read what was taken from the stream, and has seen
its end only where nothing more can come. -/
structure Flow (c : Conn) (k : Copier UInt8) : Prop where
  taken : k.read = c.stream.taken
  eof : k.phase.seen = some .eof → c.ended = true ∧ c.stream.queue = []

variable {c c' : Conn} {k k' : Copier UInt8} {t u : Tunnel} {e : Event}

theorem Flow.grows (h : Flow c k) (hg : c.Grows c') : Flow c' k := by
  refine ⟨by rw [h.taken, hg.taken], fun hseen => ?_⟩
  obtain ⟨hended, hqueue⟩ := h.eof hseen
  obtain ⟨hended', hstream⟩ := hg.ended hended
  exact ⟨hended', by rw [hstream, hqueue]⟩

theorem Flow.read {n : Nat} {last : Option End} (h : Flow c k) (hr : c.Readable n last)
    (hf : k.fetch (c.stream.queue.take n) last = some k') : Flow (c.take n) k' := by
  obtain ⟨-, hphase, hread, -⟩ := Copier.fetch_some hf
  refine ⟨by rw [hread, h.taken]; rfl, fun hseen => ?_⟩
  rw [hphase, Phase.seen_after] at hseen
  subst hseen
  exact hr.eof

theorem Flow.writes (h : Flow c k) (hw : k.Writes k') : Flow c k' := by
  refine ⟨by rw [hw.read, h.taken], fun hseen => h.eof ?_⟩
  rcases hw.seen with heq | hfailed
  · rw [← heq, hseen]
  · rw [hfailed] at hseen
    cases hseen

/-- A copy that has come to the end has passed on everything its peer sent. -/
theorem Flow.complete (h : Flow c k) (hk : k.phase = .ended) :
    c.ended = true ∧ k.written = c.stream.sent := by
  obtain ⟨hended, hqueue⟩ := h.eof (by rw [hk]; rfl)
  exact ⟨hended, by rw [k.written_of_ended hk, h.taken, Fifo.taken_of_queue_nil _ hqueue]⟩

theorem Flow.written_isPrefix (h : Flow c k) : k.written <+: c.stream.sent := by
  refine k.written_isPrefix.trans ?_
  rw [h.taken]
  exact c.stream.ordered

/-- The handler: it has gone on when a copy had reported, and has closed what it
has come past. -/
structure Handler (t : Tunnel) : Prop where
  finished : ∀ d, t.signalled d = true → (t.copy d).phase.finished = true
  done : t.done + (if t.pc = .waiting then 0 else 1) =
    (t.signalled .clientToTarget).toNat + (t.signalled .targetToClient).toNat
  client : (t.conn .clientToTarget).closed = true ↔ t.pc = .closingServer ∨ t.pc = .returned
  server : (t.conn .targetToClient).closed = true ↔ t.pc = .returned

structure Inv (t : Tunnel) : Prop where
  flow : ∀ d, Flow (t.conn d) (t.copy d)
  handler : Handler t

theorem flow_update (h : ∀ d, Flow (t.conn d) (t.copy d)) {d : Direction} (hd : Flow c k)
    (d' : Direction) :
    Flow (Function.update t.conn d c d') (Function.update t.copy d k d') := by
  by_cases hdd : d' = d
  · rw [hdd, Function.update_self, Function.update_self]
    exact hd
  · rw [Function.update_of_ne hdd, Function.update_of_ne hdd]
    exact h d'

theorem flow_setConn (h : ∀ d, Flow (t.conn d) (t.copy d)) {d : Direction}
    (hd : Flow c (t.copy d)) (d' : Direction) : Flow (Function.update t.conn d c d') (t.copy d') := by
  have hnew := flow_update (d := d) h hd d'
  rw [Function.update_eq_self] at hnew
  exact hnew

theorem inv_start (username early : Bytes) : Inv (start username early) := by
  refine ⟨fun d => ?_, nofun, rfl, by simp [start, Conn.start], by simp [start, Conn.start]⟩
  cases d <;> exact ⟨rfl, nofun⟩

/-- Steps of the copies and of the peers leave the handler where it is. -/
theorem Handler.frame (h : Handler t)
    (hfinished : ∀ d, (t.copy d).phase.finished = true → (u.copy d).phase.finished = true)
    (hclosed : ∀ d, (u.conn d).closed = (t.conn d).closed) (hsignalled : u.signalled = t.signalled)
    (hdone : u.done = t.done) (hpc : u.pc = t.pc) : Handler u := by
  refine ⟨fun d hd => ?_, ?_, ?_, ?_⟩
  · rw [hsignalled] at hd
    exact hfinished d (h.finished d hd)
  · rw [hsignalled, hdone, hpc]
    exact h.done
  · rw [hclosed, hpc]
    exact h.client
  · rw [hclosed, hpc]
    exact h.server

theorem finished_update {d : Direction} (hbusy : (t.copy d).phase.finished = false) (d' : Direction)
    (h : (t.copy d').phase.finished = true) :
    (Function.update t.copy d k d').phase.finished = true := by
  have hd : d' ≠ d := by
    rintro rfl
    rw [hbusy] at h
    cases h
  rw [Function.update_of_ne hd]
  exact h

theorem closed_update {d : Direction} (h : c.closed = (t.conn d).closed) (d' : Direction) :
    (Function.update t.conn d c d').closed = (t.conn d').closed := by
  by_cases hd : d' = d
  · rw [hd, Function.update_self, h]
  · rw [Function.update_of_ne hd]

theorem Inv.setCopy (h : Inv t) {d : Direction} (hw : (t.copy d).Writes k) :
    Inv (t.setCopy d k) := by
  refine ⟨fun d' => ?_, h.handler.frame (finished_update hw.busy) (fun _ => rfl) rfl rfl rfl⟩
  have hflow := flow_update (d := d) h.flow ((h.flow d).writes hw) d'
  rw [Function.update_eq_self] at hflow
  exact hflow

theorem Flow.close (h : Flow c k) : Flow { c with closed := true } k := ⟨h.taken, h.eof⟩

theorem inv_step (h : Inv t) (hs : t.step e = some u) : Inv u := by
  have hflow := h.flow
  have hfinished := h.handler.finished
  have hdone := h.handler.done
  have hclient := h.handler.client
  have hserver := h.handler.server
  cases step_move hs with
  | peer d c hown hgrows hbroken =>
    exact ⟨flow_setConn hflow ((hflow d).grows hgrows),
      h.handler.frame (fun _ => id) (closed_update hgrows.closed) rfl rfl rfl⟩
  | @read d n last c hreadable hfetch =>
    have hbusy : (t.copy d).phase.finished = false := by rw [(Copier.fetch_some hfetch).1]; rfl
    refine ⟨flow_update h.flow ((h.flow d).read hreadable hfetch), ?_⟩
    exact h.handler.frame (finished_update hbusy) (closed_update rfl) rfl rfl rfl
  | writeSome hopen hput => exact h.setCopy (Copier.writes_put hput)
  | writeDone hcomplete => exact h.setCopy (Copier.writes_complete hcomplete)
  | writeFailed hfaulty hfail => exact h.setCopy (Copier.writes_fail hfail)
  | @signal d hfin hnot =>
    refine ⟨hflow, fun d' hd' => ?_, ?_, hclient, hserver⟩
    · by_cases hd : d' = d
      · rw [hd]
        exact hfin
      · refine hfinished d' ?_
        rw [← Function.update_of_ne hd true t.signalled]
        exact hd'
    · cases d <;> simp_all [Function.update] <;> omega
  | receive hpc hpos =>
    rw [hpc] at hclient hserver hdone
    refine ⟨hflow, hfinished, ?_, ?_, ?_⟩
    · rw [if_pos rfl] at hdone
      rw [if_neg (by simp), ← hdone]
      exact Nat.sub_add_cancel hpos
    · simpa using hclient
    · simpa using hserver
  | closeClient hpc =>
    rw [hpc] at hserver hdone
    refine ⟨flow_setConn hflow (hflow .clientToTarget).close, hfinished, hdone,
      by simp [close, setConn], ?_⟩
    simpa [close, setConn] using hserver
  | closeServer hpc =>
    rw [hpc] at hclient hdone
    refine ⟨flow_setConn hflow (hflow .targetToClient).close, hfinished, hdone, ?_,
      by simp [close, setConn]⟩
    simpa [close, setConn] using hclient

/-- A copy that has ended does nothing more. -/
theorem copy_of_finished (hs : t.step e = some u) {d : Direction}
    (h : (t.copy d).phase.finished = true) : u.copy d = t.copy d := by
  have hkept : ∀ {d' : Direction} {k : Copier UInt8}, (t.copy d').phase.finished = false →
      Function.update t.copy d' k d = t.copy d := by
    intro d' k hbusy
    refine Function.update_of_ne ?_ _ _
    rintro rfl
    rw [h] at hbusy
    cases hbusy
  cases step_move hs with
  | read hreadable hfetch =>
    refine hkept ?_
    rw [(Copier.fetch_some hfetch).1]
    rfl
  | writeSome hopen hput => exact hkept (Copier.writes_put hput).busy
  | writeDone hcomplete => exact hkept (Copier.writes_complete hcomplete).busy
  | writeFailed hfaulty hfail => exact hkept (Copier.writes_fail hfail).busy
  | peer | signal | receive | closeClient | closeServer => rfl

/-! ### Where no connection breaks -/

def NoBreak (e : Event) : Prop := ∀ d, e ≠ .breaks d

/-- Nothing fails before the handler closes the connections, and it closes them
when a copy has come to the end of its stream. -/
structure Sound (t : Tunnel) : Prop where
  unbroken : ∀ d, (t.conn d).broken = false
  failed : ∀ d, (t.copy d).phase.seen = some .failed → t.pc ≠ .waiting
  first : t.pc ≠ .waiting → ∃ d, (t.copy d).phase = .ended

theorem sound_start (username early : Bytes) : Sound (start username early) :=
  ⟨fun d => by cases d <;> rfl, nofun, fun h => absurd rfl h⟩

theorem Sound.pc_of_faulty (h : Sound t) (hi : Inv t) {d : Direction} (hf : (t.conn d).Faulty) :
    t.pc ≠ .waiting := by
  intro hpc
  have hclosed : (t.conn d).closed = true := by
    rcases hf with hclosed | hbroken
    · exact hclosed
    · rw [h.unbroken d] at hbroken
      cases hbroken
  cases d with
  | clientToTarget =>
    rcases hi.handler.client.mp hclosed with hc | hc <;> rw [hpc] at hc <;> cases hc
  | targetToClient =>
    have hc := hi.handler.server.mp hclosed
    rw [hpc] at hc
    cases hc

theorem ended_step (hs : t.step e = some u) (h : ∃ d, (t.copy d).phase = .ended) :
    ∃ d, (u.copy d).phase = .ended := by
  obtain ⟨d, hd⟩ := h
  exact ⟨d, by rw [copy_of_finished hs (by rw [hd]; rfl), hd]⟩

theorem Sound.setCopy (h : Sound t) {d : Direction} (hs : t.step e = some (t.setCopy d k))
    (hk : k.phase.seen = (t.copy d).phase.seen ∨ t.pc ≠ .waiting) : Sound (t.setCopy d k) := by
  refine ⟨h.unbroken, fun d' hseen => ?_, fun hpc => ended_step hs (h.first hpc)⟩
  by_cases hd : d' = d
  · subst hd
    rcases hk with heq | hpc
    · refine h.failed d' ?_
      rw [← heq, ← Function.update_self d' k t.copy]
      exact hseen
    · exact hpc
  · refine h.failed d' ?_
    rw [← Function.update_of_ne hd k t.copy]
    exact hseen

theorem sound_step (h : Sound t) (hi : Inv t) (hno : NoBreak e) (hs : t.step e = some u) :
    Sound u := by
  have hended := ended_step hs
  have hunbroken := h.unbroken
  have hfailed := h.failed
  have hfirst := h.first
  have hbroken : ∀ {d : Direction} {c : Conn}, c.broken = false →
      ∀ d', (Function.update t.conn d c d').broken = false := by
    intro d c hc d'
    by_cases hd : d' = d
    · rw [hd, Function.update_self, hc]
    · rw [Function.update_of_ne hd, hunbroken d']
  cases step_move hs with
  | peer d c hown hgrows hkept =>
    exact ⟨hbroken (by rw [hkept (hno d), hunbroken d]), hfailed, hfirst⟩
  | @read d n last c hreadable hfetch =>
    refine ⟨hbroken (hunbroken d), fun d' hseen => ?_, fun hpc => hended (hfirst hpc)⟩
    by_cases hd : d' = d
    · subst hd
      have hlast : last = some .failed := by
        rw [← Phase.seen_after ((t.conn d').stream.queue.take n) last,
          ← (Copier.fetch_some hfetch).2.1, ← Function.update_self d' c t.copy]
        exact hseen
      subst hlast
      exact h.pc_of_faulty hi hreadable.2.2.2
    · refine hfailed d' ?_
      rw [← Function.update_of_ne hd c t.copy]
      exact hseen
  | writeSome hopen hput => exact h.setCopy hs (Or.inl (Copier.seen_put hput))
  | writeDone hcomplete => exact h.setCopy hs (Or.inl (Copier.seen_complete hcomplete))
  | writeFailed hfaulty hfail => exact h.setCopy hs (Or.inr (h.pc_of_faulty hi hfaulty))
  | signal hfin hnot => exact ⟨hunbroken, hfailed, hfirst⟩
  | receive hpc hpos =>
    refine ⟨hunbroken, fun d hseen => absurd hpc (hfailed d hseen), fun _ => ?_⟩
    have hdone := hi.handler.done
    rw [hpc, if_pos rfl] at hdone
    have hsignalled : ∃ d, t.signalled d = true := by
      by_contra hnone
      have hall : ∀ d, t.signalled d = false := by
        intro d
        exact Bool.eq_false_iff.mpr fun hd => hnone ⟨d, hd⟩
      rw [hall, hall] at hdone
      simp only [Bool.toNat_false] at hdone
      omega
    obtain ⟨d, hd⟩ := hsignalled
    rcases Phase.seen_of_finished (hi.handler.finished d hd) with hend | hseen
    · exact ⟨d, hend⟩
    · exact absurd hpc (hfailed d hseen)
  | closeClient hpc =>
    refine ⟨hbroken (hunbroken _), fun _ _ => by simp, fun _ => hfirst ?_⟩
    rw [hpc]
    simp
  | closeServer hpc =>
    refine ⟨hbroken (hunbroken _), fun _ _ => by simp, fun _ => hfirst ?_⟩
    rw [hpc]
    simp

/-- Where no connection breaks, the copy that ends first has passed on everything. -/
theorem Sound.complete (h : Sound t) (hi : Inv t) {d : Direction}
    (hd : (t.copy d).phase.finished = true) :
    ∃ d, (t.conn d).ended = true ∧ (t.copy d).written = (t.conn d).stream.sent := by
  have hfirst : ∃ d, (t.copy d).phase = .ended := by
    rcases Phase.seen_of_finished hd with hend | hseen
    · exact ⟨d, hend⟩
    · exact h.first (h.failed d hseen)
  obtain ⟨d', hend⟩ := hfirst
  exact ⟨d', (hi.flow d').complete hend⟩

/-! ### How a tunnel ends -/

/-- `handleDirect` has returned, and both copies have reported. -/
def Over (t : Tunnel) : Prop := t.pc = .returned ∧ ∀ d, t.signalled d = true

def pcFuel : Pc → Nat
  | .waiting => 3
  | .closingClient => 2
  | .closingServer => 1
  | .returned => 0

/-- What the goroutines can still do by themselves, of one direction. -/
def lane (t : Tunnel) (d : Direction) : Nat :=
  3 * (t.conn d).stream.queue.length + (t.copy d).fuel + (!t.signalled d).toNat

def fuel (t : Tunnel) : Nat :=
  t.lane .clientToTarget + t.lane .targetToClient + pcFuel t.pc

theorem fuel_lanes (d : Direction) : t.fuel = t.lane d + t.lane (other d) + pcFuel t.pc := by
  cases d with
  | clientToTarget => rfl
  | targetToClient =>
    unfold fuel
    rw [Nat.add_comm (t.lane .clientToTarget)]
    rfl

/-- A step of one direction costs that direction something. -/
theorem fuel_lane {d : Direction} (hd : u.lane d < t.lane d)
    (hother : u.lane (other d) = t.lane (other d)) (hpc : u.pc = t.pc) : u.fuel < t.fuel := by
  rw [fuel_lanes d, fuel_lanes d, hother, hpc]
  omega

theorem fuel_setCopy {d : Direction} (h : k.fuel < (t.copy d).fuel) :
    (t.setCopy d k).fuel < t.fuel := by
  refine fuel_lane (d := d) ?_ ?_ rfl
  · simp only [lane, setCopy, Function.update_self]
    omega
  · simp only [lane, setCopy, Function.update_of_ne (other_ne d)]

/-- Nothing the goroutines do by themselves can go on for ever. -/
theorem fuel_step (hown : own e = true) (hs : t.step e = some u) : u.fuel < t.fuel := by
  cases step_move hs with
  | peer d c hpeer hgrows hbroken =>
    rw [hown] at hpeer
    cases hpeer
  | @read d n last c hreadable hfetch =>
    refine fuel_lane (d := d) ?_ ?_ rfl
    · have hsome : (t.conn d).stream.queue.take n ≠ [] ∨ last ≠ none := by
        cases last with
        | none =>
          have hpos : 0 < n := hreadable.2.2.2
          have hle := hreadable.2.1
          refine Or.inl fun hnil => ?_
          have hlen := congrArg List.length hnil
          rw [List.length_take, Nat.min_eq_left hle] at hlen
          exact absurd hlen (Nat.ne_of_gt hpos)
        | some last => exact Or.inr (Option.some_ne_none last)
      have hcost := Copier.fuel_fetch hfetch hsome
      have hle := hreadable.2.1
      rw [List.length_take, Nat.min_eq_left hle] at hcost
      simp only [lane, setCopy, setConn, Function.update_self, Conn.take, Fifo.popMany_queue,
        List.length_drop]
      omega
    · simp only [lane, setCopy, setConn, Function.update_of_ne (other_ne d)]
  | writeSome hopen hput => exact fuel_setCopy (Copier.fuel_put hput)
  | writeDone hcomplete => exact fuel_setCopy (Copier.fuel_complete hcomplete)
  | writeFailed hfaulty hfail => exact fuel_setCopy (Copier.fuel_fail hfail)
  | @signal d hfin hnot =>
    refine fuel_lane (d := d) ?_ ?_ rfl
    · simp [lane, hnot]
    · simp only [lane, Function.update_of_ne (other_ne d)]
  | receive hpc hpos => simp [fuel, lane, pcFuel, hpc]
  | closeClient hpc => simp [fuel, lane, pcFuel, hpc, close, setConn, Function.update]
  | closeServer hpc => simp [fuel, lane, pcFuel, hpc, close, setConn, Function.update]

/-- A step that puts nothing out. -/
def quiet : Event → Bool
  | .writeSome _ _ => false
  | _ => true

theorem written_of_quiet (hquiet : quiet e = true) (hs : t.step e = some u) (d : Direction) :
    (u.copy d).written = (t.copy d).written := by
  have hkept : ∀ {d' : Direction} {k : Copier UInt8}, k.written = (t.copy d').written →
      (Function.update t.copy d' k d).written = (t.copy d).written := by
    intro d' k heq
    by_cases hd : d = d'
    · rw [hd, Function.update_self, heq]
    · rw [Function.update_of_ne hd]
  cases step_move hs with
  | read hreadable hfetch => exact hkept (Copier.fetch_some hfetch).2.2.2.1
  | writeSome hopen hput => cases hquiet
  | writeDone hcomplete =>
    obtain ⟨n, last, -, -, -, hwritten, -⟩ := Copier.complete_some hcomplete
    exact hkept hwritten
  | writeFailed hfaulty hfail =>
    obtain ⟨n, rest, last, -, -, -, hwritten, -⟩ := Copier.fail_some hfail
    exact hkept hwritten
  | peer | signal | receive | closeClient | closeServer => rfl

/-- Once a copy has ended, some goroutine can go on without writing a byte, until
all is over. -/
theorem exists_step (hi : Inv t) (hfin : ∃ d, (t.copy d).phase.finished = true) (hover : ¬Over t) :
    ∃ e u, own e = true ∧ quiet e = true ∧ t.step e = some u := by
  by_cases hsignal : ∃ d, (t.copy d).phase.finished = true ∧ t.signalled d = false
  · obtain ⟨d, hd⟩ := hsignal
    exact ⟨.signal d, _, rfl, rfl, if_pos hd⟩
  have hsignalled : ∀ d, (t.copy d).phase.finished = true → t.signalled d = true := by
    intro d hd
    exact Bool.of_not_eq_false fun hno => hsignal ⟨d, hd, hno⟩
  cases hpc : t.pc with
  | waiting =>
    obtain ⟨d, hd⟩ := hfin
    have hpos : 0 < t.done := by
      have hdone := hi.handler.done
      have hone := hsignalled d hd
      rw [hpc, if_pos rfl, Nat.add_zero] at hdone
      rw [hdone]
      cases d <;> rw [hone, Bool.toNat_true] <;> omega
    exact ⟨.receive, _, rfl, rfl, if_pos ⟨hpc, hpos⟩⟩
  | closingClient => exact ⟨.closeClient, _, rfl, rfl, if_pos hpc⟩
  | closingServer => exact ⟨.closeServer, _, rfl, rfl, if_pos hpc⟩
  | returned =>
    have hclosed : ∀ d, (t.conn d).closed = true := by
      intro d
      cases d with
      | clientToTarget => exact hi.handler.client.mpr (Or.inr hpc)
      | targetToClient => exact hi.handler.server.mpr hpc
    have hbusy : ∃ d, (t.copy d).phase.finished = false := by
      by_contra hnone
      refine hover ⟨hpc, fun d => hsignalled d ?_⟩
      exact Bool.of_not_eq_false fun hno => hnone ⟨d, hno⟩
    obtain ⟨d, hd⟩ := hbusy
    cases hphase : (t.copy d).phase with
    | reading =>
      obtain ⟨k, hk⟩ := Copier.exists_fetch hphase ((t.conn d).stream.queue.take 0) (some .failed)
      have hreadable : (t.conn d).Readable 0 (some .failed) :=
        ⟨Nat.zero_le _, Nat.zero_le _, Or.inr (Nat.zero_le _), Or.inl (hclosed d)⟩
      refine ⟨.read d 0 (some .failed), (t.setConn d ((t.conn d).take 0)).setCopy d k, rfl, rfl, ?_⟩
      rw [step, if_pos hreadable, hk]
      rfl
    | writing n rest last =>
      obtain ⟨k, hk⟩ := Copier.exists_fail hphase
      refine ⟨.writeFailed d, t.setCopy d k, rfl, rfl, ?_⟩
      rw [step, if_pos (show (t.conn (other d)).Faulty from Or.inl (hclosed _)), hk]
      rfl
    | ended | failed lost =>
      rw [hphase] at hd
      cases hd

/-- From there a tunnel may end with not one byte more passed on either way. -/
theorem exists_end (hi : Inv t) (hfin : ∃ d, (t.copy d).phase.finished = true) :
    ∃ es u, (∀ e ∈ es, own e = true) ∧ run step t es = some u ∧ Over u ∧
      ∀ d, (u.copy d).written = (t.copy d).written := by
  induction hfuel : t.fuel using Nat.strong_induction_on generalizing t with
  | _ n ih =>
    subst hfuel
    by_cases hover : Over t
    · exact ⟨[], t, by simp, rfl, hover, fun _ => rfl⟩
    obtain ⟨e, m, hown, hquiet, hs⟩ := exists_step hi hfin hover
    have hfin' : ∃ d, (m.copy d).phase.finished = true := by
      obtain ⟨d, hd⟩ := hfin
      exact ⟨d, by rw [copy_of_finished hs hd]; exact hd⟩
    obtain ⟨es, u, hes, hrun, hu, hwritten⟩ := ih m.fuel (fuel_step hown hs) (inv_step hi hs) hfin' rfl
    refine ⟨e :: es, u, ?_, ?_, hu, fun d => ?_⟩
    · intro e' he'
      rcases List.mem_cons.mp he' with rfl | he'
      · exact hown
      · exact hes e' he'
    · rw [run_cons, hs]
      exact hrun
    · rw [hwritten d, written_of_quiet hquiet hs d]

/-- How many bytes a peer sends in this step. -/
def sends : Event → Nat
  | .peerSends _ bytes => bytes.length
  | _ => 0

/-- What the peers send gives the goroutines more to do. -/
theorem fuel_peer (hpeer : own e = false) (hs : t.step e = some u) :
    u.fuel ≤ t.fuel + 3 * sends e := by
  -- only one lane is touched, and nothing but its queue
  have hlane : ∀ {d : Direction} {c : Conn} {k : Nat},
      c.stream.queue.length = (t.conn d).stream.queue.length + k →
        (t.setConn d c).fuel = t.fuel + 3 * k := by
    intro d c k hc
    rw [fuel_lanes d, fuel_lanes d]
    simp only [lane, setConn, Function.update_self, Function.update_of_ne (other_ne d), hc]
    omega
  cases e with
  | peerSends d bytes =>
    simp only [step] at hs
    split at hs
    · cases hs
    · cases hs
      exact Nat.le_of_eq (hlane (by simp [sends]))
  | peerEnds d | breaks d =>
    cases hs
    exact Nat.le_of_eq (hlane (k := 0) rfl)
  | fill d n =>
    simp only [step] at hs
    split at hs
    · cases hs
    · cases hs
      exact Nat.le_of_eq (hlane (k := 0) rfl)
  | read | writeSome | writeDone | writeFailed | signal | receive | closeClient | closeServer =>
    cases hpeer

end Tunnel

/-! ## Any number of tunnels -/

open Tunnel (own Over NoBreak)

variable {s s' : State} {i : Nat} {t u : Tunnel}

theorem step_act {e : Event} (h : step s (.act i e) = some s') :
    ∃ t u, s.tunnels[i]? = some t ∧ t.step e = some u ∧ s' = ⟨s.tunnels.set i u⟩ := by
  obtain ⟨t, ht, h⟩ := Option.bind_eq_some_iff.mp h
  obtain ⟨u, hu, rfl⟩ := Option.map_eq_some_iff.mp h
  exact ⟨t, u, ht, hu, rfl⟩

theorem exists_act {e : Event} (ht : s.tunnels[i]? = some t) (hu : t.step e = some u) :
    ∃ s', step s (.act i e) = some s' ∧ s'.tunnels[i]? = some u := by
  refine ⟨⟨s.tunnels.set i u⟩, ?_, ?_⟩
  · rw [step, ht, Option.bind_some, hu]
    rfl
  · exact List.getElem?_set_self (List.getElem?_eq_some_iff.mp ht).1

/-- What every tunnel starts with and its steps keep, every tunnel of a run has. -/
theorem tunnels_invariant {P : Tunnel → Prop} {C : Event → Prop}
    (hstart : ∀ username early, P (.start username early))
    (hstep : ∀ t e u, P t → C e → t.step e = some u → P u) {es : List ProxyEvent}
    (hC : Meets step (fun _ a => ∀ i e, a = .act i e → C e) initial es)
    (hr : run step initial es = some s) : ∀ t ∈ s.tunnels, P t := by
  refine run_invariant (I := fun s => ∀ t ∈ s.tunnels, P t) (fun s a s' hI ha hs => ?_)
    (fun t ht => absurd ht List.not_mem_nil) hC hr
  cases a with
  | start username early =>
    cases hs
    intro t ht
    rcases List.mem_append.mp ht with ht | ht
    · exact hI t ht
    · rw [List.mem_singleton.mp ht]
      exact hstart username early
  | act i e =>
    obtain ⟨t, u, ht, hu, rfl⟩ := step_act hs
    intro x hx
    rcases List.mem_or_eq_of_mem_set hx with hx | rfl
    · exact hI x hx
    · exact hstep t e x (hI t (List.mem_of_getElem? ht)) (ha i e rfl) hu

theorem inv_of_run {es : List ProxyEvent} (hr : run step initial es = some s) (ht : t ∈ s.tunnels) :
    t.Inv :=
  tunnels_invariant (C := fun _ => True) Tunnel.inv_start (fun _ _ _ h _ => Tunnel.inv_step h)
    (meets_of_forall (fun _ _ _ _ _ => trivial) _ _) hr t ht

/-- A run of one tunnel is a run of the proxy. -/
theorem run_act {es : List Event} (ht : s.tunnels[i]? = some t) (hr : run Tunnel.step t es = some u) :
    ∃ s', run step s (es.map (.act i)) = some s' ∧ s'.tunnels[i]? = some u := by
  induction es generalizing s t with
  | nil =>
    cases hr
    exact ⟨s, rfl, ht⟩
  | cons e es ih =>
    obtain ⟨m, hs, hrest⟩ := run_cons_some hr
    obtain ⟨s₁, hs₁, hm⟩ := exists_act ht hs
    obtain ⟨s', hs', hu⟩ := ih hm hrest
    refine ⟨s', ?_, hu⟩
    rw [List.map_cons, run_cons, hs₁]
    exact hs'

/-- The step is one of the goroutines of this tunnel. -/
def ownOf (i : Nat) : ProxyEvent → Bool
  | .start _ _ => false
  | .act j e => j = i && own e

/-- How many bytes a peer of this tunnel sends in this step. -/
def sendsTo (i : Nat) : ProxyEvent → Nat
  | .start _ _ => 0
  | .act j e => if j = i then Tunnel.sends e else 0

/-- A step costs the tunnel whose goroutines take it, and leaves the others as they are. -/
theorem fuel_act {a : ProxyEvent} (ht : s.tunnels[i]? = some t) (h : step s a = some s') :
    ∃ u, s'.tunnels[i]? = some u ∧
      u.fuel + (ownOf i a).toNat ≤ t.fuel + 3 * sendsTo i a := by
  have hlt := (List.getElem?_eq_some_iff.mp ht).1
  cases a with
  | start username early =>
    cases h
    exact ⟨t, by simp [List.getElem?_append_left hlt, ht], by simp [ownOf, sendsTo]⟩
  | act j e =>
    obtain ⟨t', u, ht', hu, rfl⟩ := step_act h
    by_cases hj : j = i
    · subst hj
      cases ht.symm.trans ht'
      refine ⟨u, List.getElem?_set_self hlt, ?_⟩
      cases hown : own e with
      | true =>
        have hcost := Tunnel.fuel_step hown hu
        simp only [ownOf, sendsTo, hown, decide_true, Bool.true_and, Bool.toNat_true, if_true]
        omega
      | false =>
        have hcost := Tunnel.fuel_peer hown hu
        simp only [ownOf, sendsTo, hown, decide_true, Bool.true_and, Bool.toNat_false, if_true]
        omega
    · refine ⟨t, (List.getElem?_set_ne hj).trans ht, ?_⟩
      simp [ownOf, sendsTo, hj]

/-- The goroutines of a tunnel take no more steps than their measure allows, and three for
every byte its peers send meanwhile. -/
theorem countP_le_fuel {fs : List ProxyEvent} (ht : s.tunnels[i]? = some t)
    (hr : run step s fs = some s') :
    fs.countP (ownOf i) ≤ t.fuel + 3 * (fs.map (sendsTo i)).sum := by
  induction fs generalizing s t with
  | nil => exact Nat.zero_le _
  | cons a fs ih =>
    obtain ⟨m, hs, hrest⟩ := run_cons_some hr
    obtain ⟨u, hu, hcost⟩ := fuel_act ht hs
    have hle := ih hu hrest
    rw [List.countP_cons, List.map_cons, List.sum_cons]
    cases hown : ownOf i a with
    | true =>
      rw [hown, Bool.toNat_true] at hcost
      rw [if_pos rfl]
      omega
    | false =>
      rw [hown, Bool.toNat_false] at hcost
      rw [if_neg (by simp)]
      omega

/-- What a tunnel has put out on one side is what came in on the other, in order
and without a gap, and all of it where its copy has come to the end; a handler
that has returned leaves no connection open. -/
theorem direct_streams {es : List ProxyEvent} (hr : run step initial es = some s)
    (ht : t ∈ s.tunnels) (d : Direction) :
    (t.copy d).written <+: (t.conn d).stream.sent ∧
      ((t.copy d).phase = .ended →
        (t.conn d).ended = true ∧ (t.copy d).written = (t.conn d).stream.sent) ∧
      (t.pc = .returned → (t.conn d).closed = true ∧
        ∃ d', t.signalled d' = true ∧ (t.copy d').phase.finished = true) := by
  have hi := inv_of_run hr ht
  refine ⟨(hi.flow d).written_isPrefix, (hi.flow d).complete, fun hpc => ⟨?_, ?_⟩⟩
  · cases d with
    | clientToTarget => exact hi.handler.client.mpr (Or.inr hpc)
    | targetToClient => exact hi.handler.server.mpr hpc
  · by_contra hnone
    have hall : ∀ d', t.signalled d' = false := by
      intro d'
      exact Bool.eq_false_iff.mpr fun hd => hnone ⟨d', hd, hi.handler.finished d' hd⟩
    have hdone := hi.handler.done
    rw [hpc, if_neg (by simp), hall, hall] at hdone
    simp only [Bool.toNat_false] at hdone
    omega

/-- A client that ends its stream behind its request, before the answer is read. -/
def halfClose : List ProxyEvent :=
  [.start [0x75] [1, 2], .act 0 (.read .clientToTarget 2 none),
    .act 0 (.writeSome .clientToTarget 2), .act 0 (.writeDone .clientToTarget),
    .act 0 (.peerEnds .clientToTarget), .act 0 (.peerSends .targetToClient [3]),
    .act 0 (.read .clientToTarget 0 (some .eof))]

theorem direct_streams_halfClose : ∃ s t, run step initial halfClose = some s ∧ t ∈ s.tunnels ∧
    (t.copy .clientToTarget).phase = .ended ∧
    (t.copy .clientToTarget).written = (t.conn .clientToTarget).stream.sent := by
  obtain ⟨s, t, hr, ht, hended⟩ : ∃ s t, run step initial halfClose = some s ∧ t ∈ s.tunnels ∧
      (t.copy .clientToTarget).phase = .ended := ⟨_, _, rfl, List.mem_singleton_self _, rfl⟩
  exact ⟨s, t, hr, ht, hended, ((direct_streams hr ht .clientToTarget).2.1 hended).2⟩

/-- Where no connection breaks, a tunnel of which a copy has ended has passed on
everything one of the peers ever sent. From there it can end without another byte
for the other peer. -/
theorem direct_first_copy {es : List ProxyEvent}
    (hno : Meets step (fun _ a => ∀ i e, a = .act i e → NoBreak e) initial es)
    (hr : run step initial es = some s) (ht : s.tunnels[i]? = some t)
    (hfin : ∃ d, (t.copy d).phase.finished = true) :
    (∃ d, (t.conn d).ended = true ∧ (t.copy d).written = (t.conn d).stream.sent) ∧
      ∃ (fs : List Event) (s' : State) (u : Tunnel), (∀ e ∈ fs, own e = true) ∧
        run step s (fs.map (.act i)) = some s' ∧ s'.tunnels[i]? = some u ∧ Over u ∧
        ∀ d, (u.copy d).written = (t.copy d).written := by
  have hmem : t ∈ s.tunnels := List.mem_of_getElem? ht
  have hboth : t.Inv ∧ t.Sound := by
    refine tunnels_invariant (P := fun t => t.Inv ∧ t.Sound) (fun username early => ?_)
      (fun t e u h hC hs => ?_) hno hr t hmem
    · exact ⟨Tunnel.inv_start username early, Tunnel.sound_start username early⟩
    · exact ⟨Tunnel.inv_step h.1 hs, Tunnel.sound_step h.2 h.1 hC hs⟩
  obtain ⟨d, hd⟩ := hfin
  refine ⟨hboth.2.complete hboth.1 hd, ?_⟩
  obtain ⟨fs, u, hown, hrun, hover, hwritten⟩ := Tunnel.exists_end hboth.1 ⟨d, hd⟩
  obtain ⟨s', hs', hu⟩ := run_act ht hrun
  exact ⟨fs, s', u, hown, hs', hu, hover, hwritten⟩

theorem direct_first_copy_halfClose : ∃ s t, run step initial halfClose = some s ∧
    s.tunnels[0]? = some t ∧ (t.conn .targetToClient).stream.sent = [3] ∧
    ∃ (fs : List Event) (s' : State) (u : Tunnel), run step s (fs.map (.act 0)) = some s' ∧
      s'.tunnels[0]? = some u ∧ Over u ∧ (u.copy .targetToClient).written = [] := by
  refine ⟨_, _, rfl, rfl, rfl, ?_⟩
  have hno : Meets step (fun _ a => ∀ i e, a = .act i e → NoBreak e) initial halfClose := by
    refine meets_of_mem fun a ha _ i e he d => ?_
    subst he
    simp [halfClose] at ha
    rintro rfl
    simp at ha
  obtain ⟨-, fs, s', u, -, hrun, hu, hover, hwritten⟩ :=
    direct_first_copy (i := 0) hno rfl rfl ⟨.clientToTarget, rfl⟩
  exact ⟨fs, s', u, hrun, hu, hover, hwritten .targetToClient⟩

/-- Once a copy has ended the rest follows by itself: some goroutine of the tunnel can take
a step until the handler has returned and both copies have reported. In every run that goes
on from there, whatever the peers and the other tunnels do between, they take no more than
`fuel` steps, and three for every byte the peers send meanwhile. -/
theorem direct_tunnel_ends {es : List ProxyEvent} (hr : run step initial es = some s)
    (ht : s.tunnels[i]? = some t) :
    ((∃ d, (t.copy d).phase.finished = true) → ¬Over t →
      ∃ e s', own e = true ∧ step s (.act i e) = some s') ∧
    ∀ fs s', run step s fs = some s' →
      fs.countP (ownOf i) ≤ t.fuel + 3 * (fs.map (sendsTo i)).sum := by
  have hi := inv_of_run hr (List.mem_of_getElem? ht)
  refine ⟨fun hfin hover => ?_, fun fs s' hfs => countP_le_fuel ht hfs⟩
  obtain ⟨e, u, hown, -, hs⟩ := Tunnel.exists_step hi hfin hover
  obtain ⟨s', hs', -⟩ := exists_act ht hs
  exact ⟨e, s', hown, hs'⟩

/-- After a half-close the target sends on while the handler is slow. -/
def targetSendsOn : List ProxyEvent :=
  [.act 0 (.signal .clientToTarget), .act 0 (.peerSends .targetToClient [4, 5]),
    .start [0x76] [], .act 0 (.read .targetToClient 2 none),
    .act 1 (.peerEnds .targetToClient), .act 0 (.writeSome .targetToClient 1),
    .act 0 .receive, .act 0 .closeClient, .act 0 .closeServer]

theorem direct_tunnel_ends_halfClose : ∃ s t, run step initial halfClose = some s ∧
    s.tunnels[0]? = some t ∧ ¬Over t ∧ (∃ e s', own e = true ∧ step s (.act 0 e) = some s') ∧
    (run step s targetSendsOn).isSome = true ∧ targetSendsOn.countP (ownOf 0) = 6 ∧
    6 ≤ t.fuel + 3 * 2 := by
  obtain ⟨s, t, hr, ht, hfin, hpc, hrun⟩ : ∃ s t, run step initial halfClose = some s ∧
      s.tunnels[0]? = some t ∧ (t.copy .clientToTarget).phase.finished = true ∧ t.pc = .waiting ∧
      (run step s targetSendsOn).isSome = true :=
    ⟨_, _, rfl, rfl, rfl, rfl, by decide +kernel⟩
  have hnot : ¬Over t := fun h => absurd (hpc.symm.trans h.1) (by simp)
  obtain ⟨hgoes, hbound⟩ := direct_tunnel_ends hr ht
  obtain ⟨s', hs'⟩ := Option.isSome_iff_exists.mp hrun
  exact ⟨s, t, hr, ht, hnot, hgoes ⟨.clientToTarget, hfin⟩ hnot, hrun, rfl,
    hbound targetSendsOn s' hs'⟩

end SplitProxy.DirectTunnel
