import SplitProxy.Fifo

/-!
# A copy loop

Read a chunk, write it, count what the write took, until a read or a write ends
the loop. A write may take its chunk in pieces and fail after any of them. A
copier carries what it has read and written so far; that nothing is missing
between the two but what it has in hand, and that the count lags by the write
under way, are fields.
-/
namespace SplitProxy

namespace Fifo

variable {α : Type} (c : Fifo α)

def pushMany (as : List α) : Fifo α :=
  ⟨c.sent ++ as, c.taken, c.ordered.trans (List.prefix_append _ _)⟩

/-- Receive the oldest `n` elements, or what there is. -/
def popMany (n : Nat) : Fifo α :=
  ⟨c.sent, c.taken ++ c.queue.take n, by
    refine ⟨c.queue.drop n, ?_⟩
    rw [List.append_assoc, List.take_append_drop, c.taken_append_queue]⟩

@[simp] theorem pushMany_sent (as : List α) : (c.pushMany as).sent = c.sent ++ as := rfl
@[simp] theorem pushMany_taken (as : List α) : (c.pushMany as).taken = c.taken := rfl
@[simp] theorem popMany_sent (n : Nat) : (c.popMany n).sent = c.sent := rfl
@[simp] theorem popMany_taken (n : Nat) : (c.popMany n).taken = c.taken ++ c.queue.take n := rfl

@[simp] theorem popMany_queue (n : Nat) : (c.popMany n).queue = c.queue.drop n := by
  have h : c.taken ++ c.queue.take n ++ (c.popMany n).queue =
      c.taken ++ c.queue.take n ++ c.queue.drop n := calc
    _ = c.sent := (c.popMany n).taken_append_queue
    _ = c.taken ++ c.queue := c.taken_append_queue.symm
    _ = _ := by rw [List.append_assoc, List.take_append_drop]
  exact List.append_cancel_left h

@[simp] theorem pushMany_queue (as : List α) : (c.pushMany as).queue = c.queue ++ as := by
  have h : c.taken ++ (c.pushMany as).queue = c.taken ++ (c.queue ++ as) := calc
    _ = c.sent ++ as := (c.pushMany as).taken_append_queue
    _ = _ := by rw [← List.append_assoc, c.taken_append_queue]
  exact List.append_cancel_left h

theorem taken_of_queue_nil (h : c.queue = []) : c.taken = c.sent := by
  rw [← c.taken_append_queue, h, List.append_nil]

end Fifo

end SplitProxy

namespace SplitProxy.CopyLoop

variable {α : Type}

/-- How a stream ends for who reads it. -/
inductive End where
  | eof
  | failed
  deriving DecidableEq, Repr

/-- A write has put out `n` elements and has `rest` before it; `last` is how the
stream ended with the chunk, if it did. -/
inductive Phase (α : Type) where
  | reading
  | writing (n : Nat) (rest : List α) (last : Option End)
  | ended
  | failed (lost : List α)
  deriving DecidableEq, Repr

namespace Phase

/-- What has been read and not been written. -/
def hand : Phase α → List α
  | .writing _ rest _ => rest
  | .failed lost => lost
  | .reading | .ended => []

/-- What the write under way has put out. -/
def uncounted : Phase α → Nat
  | .writing n _ _ => n
  | .reading | .ended | .failed _ => 0

/-- Where a chunk, or what came instead of one, leads. -/
def after : List α → Option End → Phase α
  | [], none => .reading
  | [], some .eof => .ended
  | [], some .failed => .failed []
  | a :: as, last => .writing 0 (a :: as) last

def finished : Phase α → Bool
  | .reading | .writing _ _ _ => false
  | .ended | .failed _ => true

/-- How the stream has ended, once a read has said so or a write has failed. -/
def seen : Phase α → Option End
  | .reading => none
  | .writing _ _ last => last
  | .ended => some .eof
  | .failed _ => some .failed

@[simp] theorem seen_after (as : List α) (last : Option End) : (after as last).seen = last := by
  cases as with
  | nil => rcases last with _ | _ | _ <;> rfl
  | cons a as => rfl

theorem seen_of_finished {p : Phase α} (h : p.finished = true) :
    p = .ended ∨ p.seen = some .failed := by
  cases p with
  | reading | writing n rest last => cases h
  | ended => exact Or.inl rfl
  | failed lost => exact Or.inr rfl

@[simp] theorem hand_after (as : List α) (last : Option End) : (after as last).hand = as := by
  cases as with
  | nil => rcases last with _ | _ | _ <;> rfl
  | cons a as => rfl

@[simp] theorem uncounted_after (as : List α) (last : Option End) : (after as last).uncounted = 0 := by
  cases as with
  | nil => rcases last with _ | _ | _ <;> rfl
  | cons a as => rfl

end Phase

structure Copier (α : Type) where
  read : List α
  written : List α
  counted : Nat
  phase : Phase α
  whole : written ++ phase.hand = read
  tally : counted + phase.uncounted = written.length

namespace Copier

def start : Copier α := ⟨[], [], 0, .reading, rfl, rfl⟩

/-- A read returns. -/
def fetch (c : Copier α) (as : List α) (last : Option End) : Option (Copier α) :=
  match h : c.phase with
  | .reading => some
      { read := c.read ++ as
        written := c.written
        counted := c.counted
        phase := .after as last
        whole := by rw [Phase.hand_after, ← c.whole, h, Phase.hand, List.append_nil]
        tally := by rw [Phase.uncounted_after, ← c.tally, h, Phase.uncounted] }
  | _ => none

/-- The write puts out `k` more elements. -/
def put (c : Copier α) (k : Nat) : Option (Copier α) :=
  match h : c.phase with
  | .writing n rest last =>
    if hk : 0 < k ∧ k ≤ rest.length then some
      { read := c.read
        written := c.written ++ rest.take k
        counted := c.counted
        phase := .writing (n + k) (rest.drop k) last
        whole := by rw [← c.whole, h, Phase.hand, Phase.hand, List.append_assoc, List.take_append_drop]
        tally := by
          have htally := c.tally
          rw [h, Phase.uncounted] at htally
          rw [List.length_append, List.length_take, Nat.min_eq_left hk.2, Phase.uncounted]
          omega }
    else none
  | _ => none

/-- The write returns with the whole chunk out. -/
def complete (c : Copier α) : Option (Copier α) :=
  match h : c.phase with
  | .writing n [] last => some
      { read := c.read
        written := c.written
        counted := c.counted + n
        phase := .after [] last
        whole := by rw [Phase.hand_after, ← c.whole, h, Phase.hand]
        tally := by rw [Phase.uncounted_after, ← c.tally, h, Phase.uncounted, Nat.add_zero] }
  | _ => none

/-- The write returns an error. -/
def fail (c : Copier α) : Option (Copier α) :=
  match h : c.phase with
  | .writing n rest _ => some
      { read := c.read
        written := c.written
        counted := c.counted + n
        phase := .failed rest
        whole := by rw [← c.whole, h]; rfl
        tally := by rw [← c.tally, h]; rfl }
  | _ => none

variable {c d : Copier α} {as : List α} {last : Option End} {k : Nat}

theorem fetch_some (h : c.fetch as last = some d) :
    c.phase = .reading ∧ d.phase = .after as last ∧ d.read = c.read ++ as ∧
      d.written = c.written ∧ d.counted = c.counted := by
  unfold fetch at h
  split at h
  · rename_i hphase
    cases h
    exact ⟨hphase, rfl, rfl, rfl, rfl⟩
  · cases h

theorem put_some (h : c.put k = some d) :
    ∃ n rest last, c.phase = .writing n rest last ∧ 0 < k ∧ k ≤ rest.length ∧
      d.phase = .writing (n + k) (rest.drop k) last ∧ d.read = c.read ∧
      d.written = c.written ++ rest.take k ∧ d.counted = c.counted := by
  unfold put at h
  split at h
  · rename_i n rest last hphase
    split at h
    · rename_i hk
      cases h
      exact ⟨n, rest, last, hphase, hk.1, hk.2, rfl, rfl, rfl, rfl⟩
    · cases h
  · cases h

theorem complete_some (h : c.complete = some d) :
    ∃ n last, c.phase = .writing n [] last ∧ d.phase = .after [] last ∧ d.read = c.read ∧
      d.written = c.written ∧ d.counted = c.counted + n := by
  unfold complete at h
  split at h
  · rename_i n last hphase
    cases h
    exact ⟨n, last, hphase, rfl, rfl, rfl, rfl⟩
  · cases h

theorem fail_some (h : c.fail = some d) :
    ∃ n rest last, c.phase = .writing n rest last ∧ d.phase = .failed rest ∧ d.read = c.read ∧
      d.written = c.written ∧ d.counted = c.counted + n := by
  unfold fail at h
  split at h
  · rename_i n rest last hphase
    cases h
    exact ⟨n, rest, last, hphase, rfl, rfl, rfl, rfl⟩
  · cases h

theorem exists_fetch (h : c.phase = .reading) (as : List α) (last : Option End) :
    ∃ d, c.fetch as last = some d := by
  unfold fetch
  split
  · exact ⟨_, rfl⟩
  · rename_i hno
    exact absurd h hno

theorem exists_fail {n : Nat} {rest : List α} (h : c.phase = .writing n rest last) :
    ∃ d, c.fail = some d := by
  unfold fail
  split
  · exact ⟨_, rfl⟩
  · rename_i hno
    exact absurd h (hno n rest last)

theorem seen_put (h : c.put k = some d) : d.phase.seen = c.phase.seen := by
  obtain ⟨n, rest, last, hc, -, -, hd, -⟩ := put_some h
  rw [hc, hd]
  rfl

theorem seen_complete (h : c.complete = some d) : d.phase.seen = c.phase.seen := by
  obtain ⟨n, last, hc, hd, -⟩ := complete_some h
  rw [hc, hd, Phase.seen_after]
  rfl

/-- A write changes neither what was read nor how the stream ended, unless it fails. -/
structure Writes (c d : Copier α) : Prop where
  read : d.read = c.read
  seen : d.phase.seen = c.phase.seen ∨ d.phase.seen = some .failed
  busy : c.phase.finished = false

theorem writes_put (h : c.put k = some d) : Writes c d := by
  obtain ⟨n, rest, last, hc, -, -, -, hread, -⟩ := put_some h
  exact ⟨hread, Or.inl (seen_put h), by rw [hc]; rfl⟩

theorem writes_complete (h : c.complete = some d) : Writes c d := by
  obtain ⟨n, last, hc, -, hread, -⟩ := complete_some h
  exact ⟨hread, Or.inl (seen_complete h), by rw [hc]; rfl⟩

theorem writes_fail (h : c.fail = some d) : Writes c d := by
  obtain ⟨n, rest, last, hc, hd, hread, -⟩ := fail_some h
  exact ⟨hread, Or.inr (by rw [hd]; rfl), by rw [hc]; rfl⟩

/-- What has been written is an initial segment of what was read. -/
theorem written_isPrefix (c : Copier α) : c.written <+: c.read := ⟨c.phase.hand, c.whole⟩

/-- A copier that has come to the end of the stream has written everything. -/
theorem written_of_ended (h : c.phase = .ended) : c.written = c.read := by
  have hwhole := c.whole
  rw [h, Phase.hand, List.append_nil] at hwhole
  exact hwhole

/-- What is left of a copier that gets nothing more to read: each step of a write
costs something. -/
def fuel (c : Copier α) : Nat :=
  match c.phase with
  | .reading => 1
  | .writing _ rest _ => 2 + rest.length
  | .ended | .failed _ => 0

theorem fuel_put (h : c.put k = some d) : d.fuel < c.fuel := by
  obtain ⟨n, rest, last, hc, hpos, hle, hd, -⟩ := put_some h
  simp only [fuel, hc, hd, List.length_drop]
  omega

theorem fuel_complete (h : c.complete = some d) : d.fuel < c.fuel := by
  obtain ⟨n, last, hc, hd, -⟩ := complete_some h
  rcases last with _ | _ | _ <;> simp [fuel, hc, hd, Phase.after]

theorem fuel_fail (h : c.fail = some d) : d.fuel < c.fuel := by
  obtain ⟨n, rest, last, hc, hd, -⟩ := fail_some h
  simp only [fuel, hc, hd]
  omega

/-- A read costs two for each element it gets. -/
theorem fuel_fetch (h : c.fetch as last = some d) (hsome : as ≠ [] ∨ last ≠ none) :
    d.fuel < c.fuel + 3 * as.length := by
  obtain ⟨hc, hd, -⟩ := fetch_some h
  cases as with
  | nil => rcases last with _ | _ | _ <;> simp_all [fuel, Phase.after]
  | cons a as =>
    simp only [fuel, hc, hd, Phase.after, List.length_cons]
    omega

end Copier

end SplitProxy.CopyLoop
