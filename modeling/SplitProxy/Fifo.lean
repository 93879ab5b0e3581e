import Mathlib.Data.List.Infix

/-!
# FIFO channels with their history

A channel remembers everything ever sent on it and everything ever taken from
it. That what was taken is an initial segment of what was sent is a field, so
an out-of-order or duplicating channel cannot be built; the queue proper is the
rest of the history.
-/
namespace SplitProxy

structure Fifo (α : Type) where
  sent : List α
  taken : List α
  ordered : taken <+: sent

namespace Fifo

variable {α β : Type}

def empty : Fifo α := ⟨[], [], List.prefix_rfl⟩

/-- What a receiver has not taken yet. -/
def queue (c : Fifo α) : List α := c.sent.drop c.taken.length

def push (c : Fifo α) (a : α) : Fifo α :=
  ⟨c.sent ++ [a], c.taken, c.ordered.trans (List.prefix_append _ _)⟩

theorem taken_append_queue (c : Fifo α) : c.taken ++ c.queue = c.sent := by
  obtain ⟨rest, h⟩ := c.ordered
  simp [queue, ← h]

/-- Receive the oldest element. -/
def pop (c : Fifo α) : Option (α × Fifo α) :=
  match h : c.queue with
  | [] => none
  | a :: rest => some (a, ⟨c.sent, c.taken ++ [a], rest, by
      rw [← c.taken_append_queue, h]; simp⟩)

@[simp] theorem empty_sent : (empty : Fifo α).sent = [] := rfl
@[simp] theorem empty_taken : (empty : Fifo α).taken = [] := rfl
@[simp] theorem empty_queue : (empty : Fifo α).queue = [] := rfl
@[simp] theorem push_sent (c : Fifo α) (a : α) : (c.push a).sent = c.sent ++ [a] := rfl
@[simp] theorem push_taken (c : Fifo α) (a : α) : (c.push a).taken = c.taken := rfl

@[simp] theorem push_queue (c : Fifo α) (a : α) : (c.push a).queue = c.queue ++ [a] := by
  have h := c.ordered.length_le
  simp [queue, List.drop_append_of_le_length h]

/-- Everything a successful receive does. -/
theorem pop_some {c d : Fifo α} {a : α} (h : c.pop = some (a, d)) :
    d.sent = c.sent ∧ d.taken = c.taken ++ [a] ∧ c.queue = a :: d.queue := by
  unfold pop at h
  split at h
  · cases h
  · rename_i b rest hq
    cases h
    refine ⟨rfl, rfl, ?_⟩
    have hr : c.sent = (c.taken ++ [a]) ++ rest := by
      rw [← c.taken_append_queue, hq]; simp
    simp only [queue] at hq ⊢
    rw [hq, hr]
    simp

theorem pop_of_queue {c : Fifo α} {a : α} {rest : List α} (h : c.queue = a :: rest) :
    ∃ d, c.pop = some (a, d) := by
  unfold pop
  split
  · rename_i hq; rw [hq] at h; cases h
  · rename_i b r hq
    rw [hq] at h
    cases h
    exact ⟨_, rfl⟩

theorem taken_subset {c : Fifo α} {a : α} (h : a ∈ c.taken) : a ∈ c.sent :=
  c.ordered.subset h

/-- What is received was sent. -/
theorem mem_of_pop {c d : Fifo α} {a : α} (h : c.pop = some (a, d)) : a ∈ c.sent := by
  rw [← (pop_some h).1]
  refine taken_subset ?_
  rw [(pop_some h).2.1]
  exact List.mem_append_right _ (List.mem_singleton_self a)

end Fifo

end SplitProxy
