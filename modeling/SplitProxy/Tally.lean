import Mathlib.Data.List.Perm.Subperm

/-!
# Tallies

A quantity summed over a list of parties, and how it changes with one of them.
-/
namespace SplitProxy

variable {α : Type}

def tally (f : α → Nat) : List α → Nat
  | [] => 0
  | a :: l => f a + tally f l

namespace Tally

variable {f g h : α → Nat} {l : List α} {i : Nat} {a : α}

@[simp] theorem tally_nil (f : α → Nat) : tally f [] = 0 := rfl

@[simp] theorem tally_cons (f : α → Nat) (a : α) (l : List α) :
    tally f (a :: l) = f a + tally f l := rfl

@[simp] theorem tally_append (f : α → Nat) (l m : List α) :
    tally f (l ++ m) = tally f l + tally f m := by
  induction l with
  | nil => simp
  | cons a l ih =>
    rw [List.cons_append, tally_cons, tally_cons, ih]
    omega

theorem tally_map {β : Type} (f : α → Nat) (g : β → α) (l : List β) :
    tally f (l.map g) = tally (fun b => f (g b)) l := by
  induction l with
  | nil => rfl
  | cons b l ih => rw [List.map_cons, tally_cons, tally_cons, ih]

/-- One party changes. -/
theorem tally_set (f : α → Nat) (hi : l[i]? = some a) (b : α) :
    tally f (l.set i b) + f a = tally f l + f b := by
  induction l generalizing i with
  | nil => cases hi
  | cons x l ih =>
    cases i with
    | zero =>
      cases hi
      simp only [List.set_cons_zero, tally_cons]
      omega
    | succ i =>
      have hl := ih hi
      simp only [List.set_cons_succ, tally_cons]
      omega

theorem tally_add (hfg : ∀ a, f a + g a = h a) (l : List α) : tally f l + tally g l = tally h l := by
  induction l with
  | nil => rfl
  | cons a l ih =>
    have ha := hfg a
    simp only [tally_cons]
    omega

theorem tally_le (hfg : ∀ a ∈ l, f a ≤ g a) : tally f l ≤ tally g l := by
  induction l with
  | nil => exact Nat.le_refl _
  | cons a l ih =>
    have ha := hfg a List.mem_cons_self
    have hl := ih fun b hb => hfg b (List.mem_cons_of_mem a hb)
    simp only [tally_cons]
    omega

theorem tally_sublist (f : α → Nat) {m : List α} (h : l.Sublist m) : tally f l ≤ tally f m := by
  induction h with
  | slnil => exact Nat.le_refl _
  | cons a h ih => exact Nat.le_trans ih (Nat.le_add_left _ _)
  | cons_cons a h ih => exact Nat.add_le_add_left ih _

theorem tally_perm (f : α → Nat) {m : List α} (h : l.Perm m) : tally f l = tally f m := by
  induction h with
  | nil => rfl
  | cons a h ih => rw [tally_cons, tally_cons, ih]
  | swap a b l =>
    simp only [tally_cons]
    omega
  | trans h h' ih ih' => rw [ih, ih']

theorem tally_subperm (f : α → Nat) {m : List α} (h : l.Subperm m) : tally f l ≤ tally f m := by
  obtain ⟨k, hk, hkm⟩ := h
  rw [← tally_perm f hk]
  exact tally_sublist f hkm

/-- A tally of ones and zeros is a count. -/
theorem tally_eq_countP {p : α → Bool} (hf : ∀ a ∈ l, f a = if p a then 1 else 0) :
    tally f l = l.countP p := by
  induction l with
  | nil => rfl
  | cons a l ih =>
    have hl := ih fun b hb => hf b (List.mem_cons_of_mem a hb)
    rw [tally_cons, List.countP_cons, hl, hf a List.mem_cons_self, Nat.add_comm]

end Tally

end SplitProxy
