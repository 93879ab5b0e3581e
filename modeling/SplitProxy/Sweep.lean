import SplitProxy.SyncMap

/-!
# Cleaning a concurrent map in one sweep

A cleanup scans the map once and deletes the entries it is about. Values carry
the stamp of their store, so an entry is either older than the sweep, and then
the scan finds it, or younger, and then the scan need not.
-/
namespace SplitProxy.SyncMap

/-- A scan in progress; `since` counts the stores made before it. -/
structure Sweep (κ ν : Type) where
  scan : Scan κ ν
  since : Nat
  deriving DecidableEq, Repr

/-- How far a cleanup has come: its sweep, the key it is working on, and whether
the sweep has ended. -/
structure Cleanup (κ ν : Type) where
  sweep : Option (Sweep κ ν)
  current : Option κ
  swept : Bool

variable {κ ν : Type} [DecidableEq κ]

def Sweep.mapScan (f : Scan κ ν → Scan κ ν) (r : Sweep κ ν) : Sweep κ ν :=
  { r with scan := f r.scan }

def Cleanup.mapScan (f : Scan κ ν → Scan κ ν) (c : Cleanup κ ν) : Cleanup κ ν :=
  { c with sweep := c.sweep.map (Sweep.mapScan f) }

/-- A sweep still has to hand out every entry older than itself. -/
def Sweep.Owes (stamp : ν → Nat) (r : Sweep κ ν) (k : κ) (v : ν) : Prop :=
  stamp v < r.since → k ∈ r.scan.due

/-- How an entry the cleanup is about may be in the map: while the sweep runs it is
still to be visited or being worked on, afterwards only `o` explains it. -/
structure Cleanup.Allows (stamp : ν → Nat) (c : Cleanup κ ν) (o : Prop) (k : κ) (v : ν) :
    Prop where
  sweep : ∀ r, c.sweep = some r → c.current = some k ∨ r.Owes stamp k v
  swept : c.swept = true → o

namespace Cleanup.Allows

variable {stamp : ν → Nat} {o o' : Prop} {k k' : κ} {v w : ν} {c : Cleanup κ ν}
  {f : Scan κ ν → Scan κ ν} {m : Entries κ ν} {n : Nat} {r : Sweep κ ν} {d : Scan κ ν}

omit [DecidableEq κ] in
theorem mono (ho : o → o') (h : c.Allows stamp o k v) : c.Allows stamp o' k v :=
  ⟨h.sweep, fun hv => ho (h.swept hv)⟩

omit [DecidableEq κ] in
/-- Writing another key changes nothing about what a sweep owes. -/
theorem map (hf : ∀ d : Scan κ ν, k ∈ d.due → k ∈ (f d).due) (h : c.Allows stamp o k v) :
    (c.mapScan f).Allows stamp o k v := by
  refine ⟨fun r hr => ?_, h.swept⟩
  obtain ⟨r, hc, rfl⟩ := Option.map_eq_some_iff.mp hr
  exact Or.imp_right (fun ho hs => hf _ (ho hs)) (h.sweep r hc)

theorem onDelete (h : c.Allows stamp o k v) (hne : k ≠ k') :
    (c.mapScan (·.onDelete k')).Allows stamp o k v :=
  h.map fun _ hm => Scan.mem_due_onDelete.mpr ⟨hm, hne⟩

theorem onStore (h : c.Allows stamp o k v) (hne : k ≠ k') :
    (c.mapScan (·.onStore k' w)).Allows stamp o k v :=
  h.map fun _ hm => Scan.mem_due_onStore.mpr ⟨hm, hne⟩

omit [DecidableEq κ] in
/-- An entry stored after every sweep in progress is owed by none. -/
theorem of_new (hs : ∀ r, c.sweep = some r → r.since ≤ stamp v) (ho : o) :
    (c.mapScan f).Allows stamp o k v := by
  refine ⟨fun r hr => Or.inr fun hlt => ?_, fun _ => ho⟩
  obtain ⟨r, hc, rfl⟩ := Option.map_eq_some_iff.mp hr
  have hle := hs r hc
  simp only [Sweep.mapScan] at hlt
  omega

theorem start (hl : load m k = some v) :
    Allows stamp ⟨some ⟨Scan.start m, n⟩, none, false⟩ o k v := by
  refine ⟨fun r hr => Or.inr ?_, nofun⟩
  cases hr
  exact fun _ => Scan.mem_due_start hl

/-- The key handed out is the one being worked on; the others are still owed. -/
theorem visit [DecidableEq ν] (hv : r.scan.visit m k' w = some d)
    (h : Allows stamp ⟨some r, none, false⟩ o k v) :
    Allows stamp ⟨some { r with scan := d }, some k', false⟩ o k v := by
  refine ⟨fun r' hr' => ?_, nofun⟩
  cases hr'
  by_cases hk : k' = k
  · exact Or.inl (congrArg some hk)
  · rcases h.sweep r rfl with hc | ho
    · cases hc
    · exact Or.inr fun hs => ((Scan.visit_some hv).1 k).mpr ⟨ho hs, Ne.symm hk⟩

/-- A sweep may pass over a key it hands out with a value it is not about: a key
it owes it hands out with the value in the map. -/
theorem skip [DecidableEq ν] (hv : r.scan.visit m k' w = some d)
    (h : Allows stamp ⟨some r, none, false⟩ o k v) (hl : load m k = some v) (hne : w ≠ v) :
    Allows stamp ⟨some { r with scan := d }, none, false⟩ o k v := by
  refine ⟨fun r' hr' => Or.inr ?_, nofun⟩
  cases hr'
  intro hs
  rcases h.sweep r rfl with hc | ho
  · cases hc
  · have hdue := ho hs
    refine ((Scan.visit_some hv).1 k).mpr ⟨hdue, ?_⟩
    rintro rfl
    have hw := (Scan.visit_some hv).2 hdue
    rw [hl] at hw
    exact hne (Option.some.inj hw).symm

theorem deleted (h : Allows stamp ⟨some r, some k', false⟩ o k v) (hne : k ≠ k') :
    Allows stamp ⟨some { r with scan := r.scan.onDelete k' }, none, false⟩ o k v := by
  refine ⟨fun r' hr' => Or.inr ?_, nofun⟩
  cases hr'
  rcases h.sweep r rfl with hc | ho
  · exact absurd (Option.some.inj hc).symm hne
  · exact fun hs => Scan.mem_due_onDelete.mpr ⟨ho hs, hne⟩

omit [DecidableEq κ] in
/-- A sweep that has ended leaves only entries stored after it began. -/
theorem ended (h : Allows stamp ⟨some r, none, false⟩ o k v) (hend : r.scan.ended = true)
    (hlate : r.since ≤ stamp v → o) : o := by
  rcases h.sweep r rfl with hc | ho
  · cases hc
  · refine hlate ?_
    by_contra hlt
    exact Scan.not_due_of_ended hend k (ho (by omega))

end Cleanup.Allows

end SplitProxy.SyncMap
