import Mathlib.Data.List.Nodup
import Mathlib.Data.List.Perm.Basic
import Mathlib.Logic.Function.Basic

/-!
# Things with one owner

Things lie in lists, one list at each place. They have one owner when none lies
twice at a place or at two places; the rules say how they may change hands.
-/
namespace SplitProxy.Custody

variable {ι β : Type}

/-- Nothing lies at two places, or twice at one. -/
structure Exclusive (f : ι → List β) : Prop where
  once : ∀ p, (f p).Nodup
  apart : ∀ p q b, b ∈ f p → b ∈ f q → p = q

/-- Things with one owner, all of them known. -/
structure Owned (known : β → Prop) (f : ι → List β) : Prop where
  exclusive : Exclusive f
  known : ∀ p b, b ∈ f p → known b

theorem owned_nil {known : β → Prop} : Owned known (fun _ : ι => ([] : List β)) where
  exclusive := ⟨fun _ => List.nodup_nil, fun _ _ _ h => absurd h List.not_mem_nil⟩
  known := fun _ _ h => absurd h List.not_mem_nil

variable [DecidableEq ι] {known known' : β → Prop} {f : ι → List β} {p q : ι} {b : β}
  {rest l : List β}

theorem mem_fewer (hl : l ⊆ f p) {q : ι} {x : β} (hx : x ∈ Function.update f p l q) : x ∈ f q := by
  by_cases hq : q = p
  · subst hq
    rw [Function.update_self] at hx
    exact hl hx
  · rwa [Function.update_of_ne hq] at hx

/-- Some of the things at a place are given up. -/
theorem Owned.fewer (h : Owned known f) (hl : l.Subperm (f p)) :
    Owned known (Function.update f p l) := by
  refine ⟨⟨fun q => ?_, fun q r x hq hr => ?_⟩, fun q x hx => h.known q x (mem_fewer hl.subset hx)⟩
  · by_cases hq : q = p
    · subst hq
      obtain ⟨l', hperm, hsub⟩ := hl
      rw [Function.update_self]
      exact hperm.nodup_iff.mp (hsub.nodup (h.exclusive.once q))
    · rw [Function.update_of_ne hq]
      exact h.exclusive.once q
  · exact h.exclusive.apart q r x (mem_fewer hl.subset hq) (mem_fewer hl.subset hr)

/-- A thing that is taken away is nowhere any more. -/
theorem Owned.drop (h : Owned known f) (hp : (f p).Perm (b :: rest)) :
    Owned known (Function.update f p rest) ∧ ∀ q, b ∉ Function.update f p rest q := by
  have hsub : rest.Subperm (f p) := List.Subperm.cons_self.trans hp.symm.subperm
  refine ⟨h.fewer hsub, fun q hx => ?_⟩
  have hqp := h.exclusive.apart q p b (mem_fewer hsub.subset hx) (hp.mem_iff.mpr List.mem_cons_self)
  subst hqp
  rw [Function.update_self] at hx
  exact (List.nodup_cons.mp (hp.nodup_iff.mp (h.exclusive.once q))).1 hx

/-- A thing that is nowhere is put somewhere. -/
theorem Owned.add (h : Owned known f) (hb : ∀ p, b ∉ f p) (hl : l.Perm (b :: f q))
    (hknown : ∀ x, known x ∨ x = b → known' x) : Owned known' (Function.update f q l) := by
  have hmem : ∀ r x, x ∈ Function.update f q l r → x ∈ f r ∨ (x = b ∧ r = q) := by
    intro r x hx
    by_cases hr : r = q
    · subst hr
      rw [Function.update_self] at hx
      rcases List.mem_cons.mp (hl.mem_iff.mp hx) with hx | hx
      · exact Or.inr ⟨hx, rfl⟩
      · exact Or.inl hx
    · rw [Function.update_of_ne hr] at hx
      exact Or.inl hx
  refine ⟨⟨fun r => ?_, fun r r' x hx hx' => ?_⟩, fun r x hx => ?_⟩
  · by_cases hr : r = q
    · subst hr
      rw [Function.update_self, hl.nodup_iff]
      exact List.nodup_cons.mpr ⟨hb r, h.exclusive.once r⟩
    · rw [Function.update_of_ne hr]
      exact h.exclusive.once r
  · rcases hmem r x hx with hold | ⟨rfl, rfl⟩
    · rcases hmem r' x hx' with hold' | ⟨rfl, rfl⟩
      · exact h.exclusive.apart r r' x hold hold'
      · exact absurd hold (hb r)
    · rcases hmem r' x hx' with hold' | ⟨-, rfl⟩
      · exact absurd hold' (hb r')
      · rfl
  · rcases hmem r x hx with hold | ⟨rfl, -⟩
    · exact hknown x (Or.inl (h.known r x hold))
    · exact hknown x (Or.inr rfl)

/-- A thing that was not known is put somewhere. -/
theorem Owned.new (h : Owned known f) (hb : ¬known b) (hl : l.Perm (b :: f q))
    (hknown : ∀ x, known x ∨ x = b → known' x) : Owned known' (Function.update f q l) :=
  h.add (fun p hp => hb (h.known p b hp)) hl hknown

/-- A thing changes hands. -/
theorem Owned.move (h : Owned known f) (hpq : q ≠ p) (hp : (f p).Perm (b :: rest))
    (hl : l.Perm (b :: f q)) : Owned known (Function.update (Function.update f p rest) q l) := by
  obtain ⟨hdrop, hnone⟩ := h.drop hp
  have hb : known b := h.known p b (hp.mem_iff.mpr List.mem_cons_self)
  refine hdrop.add hnone ?_ ?_
  · rwa [Function.update_of_ne hpq]
  · rintro x (hx | rfl)
    · exact hx
    · exact hb

end SplitProxy.Custody
