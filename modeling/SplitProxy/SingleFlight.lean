import Mathlib.Logic.Function.Basic

/-!
# Single flights

Calls that share the work under a key: the first to come does it, and those that come
while it does wait for what it returns.
-/
namespace SplitProxy

variable {K V : Type}

/-- What a call has to do with the flights. -/
inductive Role (K : Type) where
  | apart
  | leads (key : K)
  | waits (key : K) (leader : Nat)

structure Flights (K V : Type) where
  /-- the call in flight under each key -/
  calls : K → Option Nat
  /-- what the flights that are over returned -/
  results : Nat → Option V

namespace Flights

def empty : Flights K V := ⟨fun _ => none, fun _ => none⟩

def lead [DecidableEq K] (f : Flights K V) (k : K) (i : Nat) : Flights K V :=
  { f with calls := Function.update f.calls k (some i) }

def finish [DecidableEq K] (f : Flights K V) (k : K) (i : Nat) (v : V) : Flights K V :=
  ⟨Function.update f.calls k none, Function.update f.results i (some v)⟩

/-- The table holds the calls that lead, and who waits waits for one of them or for
a result that is there. -/
structure Sound (f : Flights K V) (role : Nat → Role K) : Prop where
  led : ∀ k i, f.calls k = some i ↔ role i = .leads k
  waits : ∀ i k j, role i = .waits k j → role j = .leads k ∨ (f.results j).isSome = true
  fresh : ∀ i k, role i = .leads k → f.results i = none

variable {f : Flights K V} {role : Nat → Role K} {k : K} {i j : Nat}

theorem sound_empty : Sound (empty : Flights K V) fun _ => .apart := by
  constructor <;> simp [empty]

theorem Sound.unique (h : Sound f role) (hi : role i = .leads k) (hj : role j = .leads k) :
    i = j := by
  have hcalls := (h.led k i).mpr hi
  rw [(h.led k j).mpr hj] at hcalls
  exact (Option.some.inj hcalls).symm

/-- A call that has no result comes first. -/
theorem Sound.lead [DecidableEq K] (h : Sound f role) (hi : role i = .apart) (hk : f.calls k = none)
    (hnone : f.results i = none) : Sound (f.lead k i) (Function.update role i (.leads k)) := by
  constructor
  · intro k' j
    by_cases hj : j = i
    · subst hj
      by_cases hk' : k' = k
      · simp [Flights.lead, hk']
      · have hno := mt (h.led k' j).mp (by simp [hi])
        simp [Flights.lead, hk', hno, Ne.symm hk']
    · by_cases hk' : k' = k
      · subst hk'
        have hno : role j ≠ .leads k' := fun hl => by
          rw [(h.led k' j).mpr hl] at hk
          cases hk
        simp [Flights.lead, hj, hno, Ne.symm hj]
      · simp [Flights.lead, hk', hj, h.led k' j]
  · intro j k' l hj
    have hne : j ≠ i := by
      rintro rfl
      simp at hj
    rw [Function.update_of_ne hne] at hj
    rcases h.waits j k' l hj with hl | hl
    · have hli : l ≠ i := by
        rintro rfl
        rw [hi] at hl
        cases hl
      left
      rw [Function.update_of_ne hli]
      exact hl
    · exact Or.inr hl
  · intro j k' hj
    by_cases hji : j = i
    · rw [hji]
      exact hnone
    · rw [Function.update_of_ne hji] at hj
      exact h.fresh j k' hj

/-- A call that does not lead goes on without leading. -/
theorem Sound.move (h : Sound f role) {r : Role K} (hi : ∀ k, role i ≠ .leads k)
    (hr : ∀ k, r ≠ .leads k)
    (hwaits : ∀ k j, r = .waits k j → role j = .leads k ∨ (f.results j).isSome = true) :
    Sound f (Function.update role i r) := by
  have hlead : ∀ l k, Function.update role i r l = .leads k ↔ role l = .leads k := by
    intro l k
    by_cases hl : l = i
    · subst hl
      rw [Function.update_self]
      exact ⟨fun hrk => absurd hrk (hr k), fun hik => absurd hik (hi k)⟩
    · rw [Function.update_of_ne hl]
  constructor
  · intro k l
    rw [hlead]
    exact h.led k l
  · intro l k m hl
    rw [hlead]
    by_cases hli : l = i
    · subst hli
      rw [Function.update_self] at hl
      exact hwaits k m hl
    · rw [Function.update_of_ne hli] at hl
      exact h.waits l k m hl
  · intro l k hl
    exact h.fresh l k ((hlead l k).mp hl)

/-- A call that comes later waits. -/
theorem Sound.join (h : Sound f role) (hi : role i = .apart) (hk : f.calls k = some j) :
    Sound f (Function.update role i (.waits k j)) := by
  apply h.move
  · simp [hi]
  · simp
  · intro k' j' hr
    cases hr
    exact Or.inl ((h.led k j).mp hk)

theorem Sound.wake (h : Sound f role) (hi : role i = .waits k j) :
    Sound f (Function.update role i .apart) := by
  apply h.move
  · simp [hi]
  · simp
  · simp

/-- The leader returns, and its result is there for those that wait. -/
theorem Sound.finish [DecidableEq K] (h : Sound f role) (hi : role i = .leads k) (v : V) :
    Sound (f.finish k i v) (Function.update role i .apart) := by
  constructor
  · intro k' j
    by_cases hj : j = i
    · subst hj
      by_cases hk' : k' = k
      · simp [Flights.finish, hk']
      · have hno := mt (h.led k' j).mp (by simp [hi, Ne.symm hk'])
        simp [Flights.finish, hk', hno]
    · by_cases hk' : k' = k
      · subst hk'
        have hno : role j ≠ .leads k' := fun hl => hj (h.unique hl hi)
        simp [Flights.finish, hj, hno]
      · simp [Flights.finish, hk', hj, h.led k' j]
  · intro j k' l hj
    by_cases hli : l = i
    · right
      simp [Flights.finish, hli]
    · have hne : j ≠ i := by
        rintro rfl
        simp at hj
      rw [Function.update_of_ne hne] at hj
      rw [Function.update_of_ne hli]
      simp only [Flights.finish, Function.update_of_ne hli]
      exact h.waits j k' l hj
  · intro j k' hj
    by_cases hji : j = i
    · subst hji
      simp at hj
    · rw [Function.update_of_ne hji] at hj
      simp only [Flights.finish, Function.update_of_ne hji]
      exact h.fresh j k' hj

end Flights

end SplitProxy
