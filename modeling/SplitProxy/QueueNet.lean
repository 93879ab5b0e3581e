import Mathlib.Order.WellFounded

/-!
# Networks of bounded queues

Queues with one consumer each, and goroutines that may stand at a blocking send
to one queue. When every full queue a consumer can wait for lies below the one
it consumes, waiting never closes a circle.
-/
namespace SplitProxy

/-- One moment of such a network. -/
structure QueueNet (Q G : Type) where
  length : Q → Nat
  capacity : Q → Nat
  consumer : Q → G
  /-- the queue a goroutine stands at a send to -/
  sendsTo : G → Option Q
  /-- the goroutine can take a step of its own -/
  enabled : G → Prop

namespace QueueNet

variable {Q G α : Type} {n : QueueNet Q G} {q : Q} {g : G}

def Full (n : QueueNet Q G) (q : Q) : Prop := n.capacity q ≤ n.length q

def Blocked (n : QueueNet Q G) (g : G) : Prop := ∃ q, n.sendsTo g = some q ∧ n.Full q

/-- A message is waiting somewhere, in a queue or in the hands of a blocked sender. -/
def Busy (n : QueueNet Q G) : Prop := (∃ q, 0 < n.length q) ∨ ∃ g, n.Blocked g

/-- The consumer of a queue that is not empty can move, or waits for a full queue
of smaller rank. -/
structure Ordered [LT α] (n : QueueNet Q G) (rank : Q → α) : Prop where
  capacity : ∀ q, 0 < n.capacity q
  consumer : ∀ q, 0 < n.length q → n.enabled (n.consumer q) ∨
    ∃ r, n.sendsTo (n.consumer q) = some r ∧ n.Full r ∧ rank r < rank q

variable [LT α] {rank : Q → α}

theorem Ordered.full_pos (h : n.Ordered rank) (hq : n.Full q) : 0 < n.length q := by
  have hcap := h.capacity q
  unfold Full at hq
  omega

variable [WellFoundedLT α]

/-- Down the ranks from any waiting message some consumer can move. -/
theorem Ordered.consumer_moves (h : n.Ordered rank) (hq : 0 < n.length q) :
    ∃ r, 0 < n.length r ∧ n.enabled (n.consumer r) := by
  induction hr : rank q using WellFoundedLT.induction generalizing q with
  | ind a ih =>
    subst hr
    rcases h.consumer q hq with hmove | ⟨r, -, hfull, hlt⟩
    · exact ⟨q, hq, hmove⟩
    · exact ih (rank r) hlt (h.full_pos hfull) rfl

theorem Ordered.progress (h : n.Ordered rank) (hbusy : n.Busy) : ∃ g, n.enabled g := by
  have hq : ∃ q, 0 < n.length q := by
    rcases hbusy with hq | ⟨g, q, -, hfull⟩
    · exact hq
    · exact ⟨q, h.full_pos hfull⟩
  obtain ⟨q, hq⟩ := hq
  obtain ⟨r, -, hmove⟩ := h.consumer_moves hq
  exact ⟨n.consumer r, hmove⟩

end QueueNet

end SplitProxy
