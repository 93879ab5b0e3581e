import Mathlib.Data.Set.Card

/-!
# Counting the places of a map

How many places a Boolean function is true at, where these are finitely many,
and how an update at one place changes the number.
-/
namespace SplitProxy.FiniteCount

variable {ι : Type} {g : ι → Bool} {i : ι}

def Holds (g : ι → Bool) : Set ι := {j | g j = true}

/-- How many places `g` is true at. -/
noncomputable def count (g : ι → Bool) : Nat := (Holds g).ncard

theorem holds_update [DecidableEq ι] (g : ι → Bool) (i : ι) (b : Bool) :
    Holds (Function.update g i b) = if b then insert i (Holds g) else Holds g \ {i} := by
  ext j
  by_cases hj : j = i
  · subst hj
    cases b <;> simp [Holds]
  · cases b <;> simp [Holds, hj]

theorem finite_update [DecidableEq ι] (h : (Holds g).Finite) (i : ι) (b : Bool) :
    (Holds (Function.update g i b)).Finite := by
  rw [holds_update]
  cases b with
  | true => exact h.insert i
  | false => exact h.subset Set.sdiff_subset

/-- The number changes by what changes at the place. -/
theorem count_update [DecidableEq ι] (h : (Holds g).Finite) (i : ι) (b : Bool) :
    count (Function.update g i b) + (g i).toNat = count g + b.toNat := by
  rw [count, count, holds_update]
  cases b with
  | true =>
    rw [if_pos rfl]
    cases hi : g i with
    | true => rw [Set.insert_eq_of_mem (show i ∈ Holds g from hi)]
    | false =>
      have hno : i ∉ Holds g := by simp [Holds, hi]
      rw [Set.ncard_insert_of_notMem hno h]
      rfl
  | false =>
    rw [if_neg Bool.false_ne_true]
    cases hi : g i with
    | true => exact Set.ncard_sdiff_singleton_add_one (show i ∈ Holds g from hi) h
    | false =>
      have hno : i ∉ Holds g := by simp [Holds, hi]
      rw [Set.sdiff_singleton_eq_self hno]

theorem holds_empty (h : ∀ j, g j = false) : Holds g = ∅ := by
  ext j
  simp [Holds, h j]

theorem count_eq_zero (h : ∀ j, g j = false) : count g = 0 := by
  rw [count, holds_empty h, Set.ncard_empty]

end SplitProxy.FiniteCount
