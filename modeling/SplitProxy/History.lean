import Mathlib.Data.List.Infix

/-!
# A value and its history

Everything a shared value has ever been, so that what a reader has taken from it
in pieces can be dated. A reading names the moment it was made at.
-/
namespace SplitProxy

structure History (V : Type) where
  /-- the values it had, the oldest first -/
  past : List V
  now : V

namespace History

variable {V : Type} {h : History V} {m : Nat} {P Q : V → Prop}

def start (v : V) : History V := ⟨[], v⟩

/-- How often it has been written. -/
def moment (h : History V) : Nat := h.past.length

/-- The value at a moment. -/
def seen (h : History V) (m : Nat) : Option V := (h.past ++ [h.now])[m]?

def write (h : History V) (v : V) : History V := ⟨h.past ++ [h.now], v⟩

@[simp] theorem moment_write (h : History V) (v : V) : (h.write v).moment = h.moment + 1 := by
  simp [write, moment]

@[simp] theorem seen_moment (h : History V) : h.seen h.moment = some h.now := by
  simp [seen, moment]

/-- A write changes nothing that was. -/
theorem seen_write {v w : V} (hm : h.seen m = some v) : (h.write w).seen m = some v := by
  have hlt := (List.getElem?_eq_some_iff.mp hm).1
  unfold seen at hm ⊢
  rw [write, List.getElem?_append_left hlt]
  exact hm

theorem seen_le {v : V} (hm : h.seen m = some v) : m ≤ h.moment := by
  have hlt := (List.getElem?_eq_some_iff.mp hm).1
  rw [List.length_append, List.length_singleton] at hlt
  exact Nat.le_of_lt_succ hlt

/-- `P` was true of the value at the moment `m`. -/
def Held (h : History V) (m : Nat) (P : V → Prop) : Prop := ∃ v, h.seen m = some v ∧ P v

theorem held_now (hP : P h.now) : h.Held h.moment P := ⟨h.now, h.seen_moment, hP⟩

theorem Held.write (hP : h.Held m P) (v : V) : (h.write v).Held m P := by
  obtain ⟨w, hw, hPw⟩ := hP
  exact ⟨w, seen_write hw, hPw⟩

theorem Held.le (hP : h.Held m P) : m ≤ h.moment := by
  obtain ⟨v, hv, -⟩ := hP
  exact seen_le hv

/-- What was true at the present moment is true. -/
theorem Held.now (hP : h.Held h.moment P) : P h.now := by
  obtain ⟨v, hv, hPv⟩ := hP
  rw [seen_moment] at hv
  cases hv
  exact hPv

end History

end SplitProxy
