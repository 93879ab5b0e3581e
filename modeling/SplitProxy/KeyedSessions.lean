import Mathlib.Data.List.Basic
import Mathlib.Logic.Function.Basic

/-!
# Sessions under keys

A table leads from a key to the session last made for it. A session is made only
when the table leads to none that is open, it may be closed at any time, and what
leads to a closed one may be taken out. Then an open session is always found
under its key: no key has two, and whoever closes what the table leads to closes
all.
-/
namespace SplitProxy.KeyedSessions

variable {κ : Type} [DecidableEq κ]

/-- Every session ever made, with its key and whether it is closed; a session's
number is its place. -/
structure Table (κ : Type) where
  sessions : List (κ × Bool)
  lookup : κ → Option Nat

namespace Table

variable {t u : Table κ} {k : κ} {i j : Nat} {c : Bool}

def empty : Table κ := ⟨[], fun _ => none⟩

/-- The open session a key leads to. -/
def live (t : Table κ) (k : κ) : Option Nat :=
  (t.lookup k).filter fun i => (t.sessions[i]?).any fun x => !x.2

def close (t : Table κ) (i : Nat) : Table κ :=
  { t with sessions := t.sessions.modify i fun x => (x.1, true) }

def add (t : Table κ) (k : κ) : Table κ :=
  ⟨t.sessions ++ [(k, false)], Function.update t.lookup k (some t.sessions.length)⟩

def unset (t : Table κ) (k : κ) : Table κ := { t with lookup := Function.update t.lookup k none }

/-- Close every session the table leads to, and empty it. -/
def closeAll (t : Table κ) : Table κ :=
  { sessions := t.sessions.mapIdx fun i x => if t.lookup x.1 = some i then (x.1, true) else x
    lookup := fun _ => none }

/-- An open session is found under its key, and what is found there has that key. -/
structure Sound (t : Table κ) : Prop where
  current : ∀ i k, t.sessions[i]? = some (k, false) → t.lookup k = some i
  keyed : ∀ k i, t.lookup k = some i → ∃ c, t.sessions[i]? = some (k, c)

omit [DecidableEq κ] in
theorem sound_empty : Sound (empty : Table κ) :=
  ⟨fun i k h => by simp [empty] at h, fun k i h => by cases h⟩

omit [DecidableEq κ] in
theorem live_none (h : t.live k = none) (hi : t.sessions[i]? = some (k, false)) :
    t.lookup k ≠ some i := by
  intro hk
  simp [live, hk, hi] at h

theorem Sound.add (h : Sound t) (hk : t.live k = none) : Sound (t.add k) := by
  refine ⟨fun i k' hi => ?_, fun k' i hk' => ?_⟩
  · simp only [Table.add] at hi ⊢
    rw [List.getElem?_append] at hi
    split at hi
    · have hne : k' ≠ k := by
        rintro rfl
        exact live_none hk hi (h.current i k' hi)
      rw [Function.update_of_ne hne]
      exact h.current i k' hi
    · rename_i hge
      have hlen := (List.getElem?_eq_some_iff.mp hi).1
      rw [List.length_singleton] at hlen
      have hzero : i - t.sessions.length = 0 := by omega
      rw [hzero] at hi
      cases hi
      rw [Function.update_self]
      congr
      omega
  · simp only [Table.add] at hk' ⊢
    by_cases hne : k' = k
    · subst hne
      rw [Function.update_self] at hk'
      cases hk'
      exact ⟨false, by simp⟩
    · rw [Function.update_of_ne hne] at hk'
      obtain ⟨c, hc⟩ := h.keyed k' i hk'
      refine ⟨c, ?_⟩
      rw [List.getElem?_append_left (List.getElem?_eq_some_iff.mp hc).1]
      exact hc

theorem Sound.unset (h : Sound t) (hk : ∀ i : Nat, t.sessions[i]? ≠ some (k, false)) :
    Sound (t.unset k) := by
  refine ⟨fun i k' hi => ?_, fun k' i hk' => ?_⟩
  · have hne : k' ≠ k := by
      rintro rfl
      exact hk i hi
    simp only [Table.unset, Function.update_of_ne hne]
    exact h.current i k' hi
  · simp only [Table.unset] at hk'
    by_cases hne : k' = k
    · subst hne
      rw [Function.update_self] at hk'
      cases hk'
    · rw [Function.update_of_ne hne] at hk'
      exact h.keyed k' i hk'

section

omit [DecidableEq κ]

/-- Nothing is open under a key that leads to nothing open. -/
theorem Sound.not_open (h : Sound t) (hk : t.live k = none) (i : Nat) :
    t.sessions[i]? ≠ some (k, false) := fun hi => live_none hk hi (h.current i k hi)

theorem getElem_close (t : Table κ) (i j : Nat) : (t.close i).sessions[j]? =
    (t.sessions[j]?).map fun x => if i = j then (x.1, true) else x := by
  rw [close, List.getElem?_modify]
  by_cases hij : i = j
  · simp only [hij, ↓reduceIte]
    rfl
  · simp only [hij, ↓reduceIte]
    rfl

theorem Sound.close (h : Sound t) (i : Nat) : Sound (t.close i) := by
  refine ⟨fun j k hj => ?_, fun k j hk => ?_⟩
  · rw [getElem_close] at hj
    obtain ⟨x, hx, he⟩ := Option.map_eq_some_iff.mp hj
    split at he
    · cases he
    · subst he
      exact h.current j k hx
  · obtain ⟨c, hc⟩ := h.keyed k j hk
    rw [getElem_close, hc]
    by_cases hij : i = j
    · exact ⟨true, by simp [hij]⟩
    · exact ⟨c, by simp [hij]⟩

end

/-- What leads to a closed session may be taken out. -/
theorem Sound.forget (h : Sound t) (hi : t.sessions[i]? = some (k, true)) :
    Sound (if t.lookup k = some i then t.unset k else t) := by
  split
  · rename_i hk
    refine h.unset fun j hj => ?_
    have hj' := h.current j k hj
    rw [hk] at hj'
    cases hj'
    rw [hi] at hj
    cases hj
  · exact h

omit [DecidableEq κ] in
/-- No key has two open sessions. -/
theorem Sound.unique (h : Sound t) (hi : t.sessions[i]? = some (k, false))
    (hj : t.sessions[j]? = some (k, false)) : i = j := by
  have hki := h.current i k hi
  rw [h.current j k hj] at hki
  cases hki
  rfl

omit [DecidableEq κ] in
/-- Closing what the table leads to closes everything. -/
theorem Sound.closeAll (h : Sound t) (i : Nat) (k : κ) :
    (t.closeAll).sessions[i]? ≠ some (k, false) := by
  intro hi
  rw [Table.closeAll, List.getElem?_mapIdx] at hi
  obtain ⟨x, hx, he⟩ := Option.map_eq_some_iff.mp hi
  split at he
  · cases he
  · rename_i hno
    subst he
    exact hno (h.current i k hx)

end Table

section Views

variable {α β : Type} {f : α → β}

/-- A session of a richer kind is closed as its key and flag are. -/
theorem map_modify {g : α → α} {g' : β → β} (h : ∀ x, f (g x) = g' (f x)) (l : List α) (i : Nat) :
    (l.modify i g).map f = (l.map f).modify i g' := by
  apply List.ext_getElem?
  intro j
  simp only [List.getElem?_map, List.getElem?_modify]
  by_cases hij : i = j
  · cases l[j]? <;> simp [hij, h]
  · cases l[j]? <;> simp [hij]

theorem map_mapIdx {g : Nat → α → α} {g' : Nat → β → β} (h : ∀ i x, f (g i x) = g' i (f x))
    (l : List α) : (l.mapIdx g).map f = (l.map f).mapIdx g' := by
  apply List.ext_getElem?
  intro j
  simp only [List.getElem?_map, List.getElem?_mapIdx]
  cases l[j]? <;> simp [h]

end Views

end SplitProxy.KeyedSessions
