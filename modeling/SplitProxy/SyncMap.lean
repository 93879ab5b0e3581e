import Mathlib.Data.List.Basic
import Mathlib.Data.List.Nodup

/-!
# A concurrent map and its weakly consistent scan

`load`, `store` and `delete` are atomic. A scan (`Range`) is not: it hands out
the keys one by one while others keep writing. A key nobody writes during the
scan is handed out with its value; a key that is stored or deleted meanwhile
may be handed out with any value it has had since the scan began, or not at all.
-/
namespace SplitProxy.SyncMap

abbrev Entries (κ ν : Type) := List (κ × ν)

variable {κ ν : Type} [DecidableEq κ]

def load (m : Entries κ ν) (k : κ) : Option ν := (m.find? (fun e => e.1 = k)).map Prod.snd

def delete (m : Entries κ ν) (k : κ) : Entries κ ν := m.filter (fun e => e.1 ≠ k)

def store (m : Entries κ ν) (k : κ) (v : ν) : Entries κ ν := (k, v) :: delete m k

variable {m : Entries κ ν} {k k' : κ} {v w : ν}

theorem load_cons (k' : κ) (v : ν) (m : Entries κ ν) (k : κ) :
    load ((k', v) :: m) k = if k' = k then some v else load m k := by
  by_cases h : k' = k <;> simp [load, h]

@[simp] theorem load_delete_self (m : Entries κ ν) (k : κ) : load (delete m k) k = none := by
  induction m with
  | nil => rfl
  | cons e m ih =>
    by_cases h : e.1 = k
    · simpa [delete, h] using ih
    · rw [delete, List.filter_cons_of_pos (by simpa using h), load_cons, if_neg h]
      exact ih

@[simp] theorem load_delete_other (m : Entries κ ν) (h : k' ≠ k) :
    load (delete m k) k' = load m k' := by
  induction m with
  | nil => rfl
  | cons e m ih =>
    by_cases he : e.1 = k
    · have hk : e.1 ≠ k' := fun hc => h (hc.symm.trans he)
      rw [delete, List.filter_cons_of_neg (by simpa using he), load_cons, if_neg hk]
      exact ih
    · rw [delete, List.filter_cons_of_pos (by simpa using he), load_cons, load_cons]
      by_cases hk : e.1 = k'
      · rw [if_pos hk, if_pos hk]
      · rw [if_neg hk, if_neg hk]
        exact ih

theorem load_delete (m : Entries κ ν) (k k' : κ) :
    load (delete m k) k' = if k' = k then none else load m k' := by
  by_cases h : k' = k
  · subst h
    simp
  · simp [h]

@[simp] theorem load_store_self (m : Entries κ ν) (k : κ) (v : ν) :
    load (store m k v) k = some v := by
  rw [store, load_cons, if_pos rfl]

@[simp] theorem load_store_other (m : Entries κ ν) (v : ν) (h : k' ≠ k) :
    load (store m k v) k' = load m k' := by
  rw [store, load_cons, if_neg (Ne.symm h), load_delete_other m h]

theorem load_store (m : Entries κ ν) (k k' : κ) (v : ν) :
    load (store m k v) k' = if k' = k then some v else load m k' := by
  by_cases h : k' = k
  · subst h
    simp
  · simp [h]

/-- A key is deleted only from its own binding. -/
theorem load_of_delete (h : load (delete m k) k' = some v) : k' ≠ k ∧ load m k' = some v := by
  rw [load_delete] at h
  split at h
  · cases h
  · exact ⟨‹_›, h⟩

theorem load_of_store (h : load (store m k v) k' = some w) :
    k' = k ∧ w = v ∨ k' ≠ k ∧ load m k' = some w := by
  rw [load_store] at h
  split at h
  · cases h
    exact Or.inl ⟨‹_›, rfl⟩
  · exact Or.inr ⟨‹_›, h⟩

theorem mem_of_load (h : load m k = some v) : (k, v) ∈ m := by
  obtain ⟨e, he, rfl⟩ := Option.map_eq_some_iff.mp h
  have hk := List.find?_some he
  simp only [decide_eq_true_eq] at hk
  subst hk
  exact List.mem_of_find?_eq_some he

/-- Every binding of the list is the one `load` finds. -/
def Functional (m : Entries κ ν) : Prop := ∀ k v, (k, v) ∈ m → load m k = some v

theorem functional_nil : Functional ([] : Entries κ ν) := fun _ _ h => by cases h

theorem Functional.delete (h : Functional m) (k : κ) : Functional (delete m k) := by
  intro k' v hm
  obtain ⟨hm, hk⟩ := List.mem_filter.mp hm
  rw [load_delete_other m (by simpa using hk)]
  exact h k' v hm

theorem Functional.store (h : Functional m) (k : κ) (v : ν) : Functional (store m k v) := by
  intro k' w hm
  rcases List.mem_cons.mp hm with hc | hm
  · cases hc
    exact load_store_self m k v
  · have hk : k' ≠ k := by simpa using (List.mem_filter.mp hm).2
    rw [load_store_other m v hk, ← load_delete_other m hk]
    exact h.delete k k' w hm

/-! ## Scans -/

structure Scan (κ ν : Type) where
  /-- bindings some key has had since the scan began -/
  offers : Entries κ ν
  /-- keys bound since then, written by nobody and not handed out yet -/
  due : List κ
  visited : List κ
  deriving DecidableEq, Repr

namespace Scan

def start (m : Entries κ ν) : Scan κ ν := ⟨m, m.map Prod.fst, []⟩

/-- Another goroutine stores under `k` while the scan is on its way. -/
def onStore (c : Scan κ ν) (k : κ) (v : ν) : Scan κ ν :=
  { c with offers := (k, v) :: c.offers, due := c.due.filter (· ≠ k) }

def onDelete (c : Scan κ ν) (k : κ) : Scan κ ν := { c with due := c.due.filter (· ≠ k) }

/-- Hand out one key with a value. -/
def visit [DecidableEq ν] (c : Scan κ ν) (m : Entries κ ν) (k : κ) (v : ν) : Option (Scan κ ν) :=
  if (k, v) ∈ c.offers ∧ k ∉ c.visited ∧ (k ∈ c.due → load m k = some v) then
    some { c with due := c.due.filter (· ≠ k), visited := k :: c.visited }
  else none

/-- The scan may return once every key it owes has been handed out. -/
def ended (c : Scan κ ν) : Bool := c.due.isEmpty

variable {c d : Scan κ ν}

theorem mem_due_start (h : load m k = some v) : k ∈ (start m).due :=
  List.mem_map.mpr ⟨(k, v), mem_of_load h, rfl⟩

@[simp] theorem mem_due_onStore : k' ∈ (c.onStore k v).due ↔ k' ∈ c.due ∧ k' ≠ k := by
  simp [onStore]

@[simp] theorem mem_due_onDelete : k' ∈ (c.onDelete k).due ↔ k' ∈ c.due ∧ k' ≠ k := by
  simp [onDelete]

theorem visit_offered [DecidableEq ν] (h : c.visit m k v = some d) :
    (k, v) ∈ c.offers ∧ d.offers = c.offers := by
  unfold visit at h
  split at h
  · rename_i hv
    cases h
    exact ⟨hv.1, rfl⟩
  · cases h

/-- A key the scan owes is handed out with the value it has. -/
theorem visit_some [DecidableEq ν] (h : c.visit m k v = some d) :
    (∀ k', k' ∈ d.due ↔ k' ∈ c.due ∧ k' ≠ k) ∧ (k ∈ c.due → load m k = some v) := by
  unfold visit at h
  split at h
  · rename_i hv
    cases h
    refine ⟨fun k' => ?_, hv.2.2⟩
    simp
  · cases h

omit [DecidableEq κ] in
theorem not_due_of_ended (h : c.ended = true) (k : κ) : k ∉ c.due := by
  rw [ended, List.isEmpty_iff] at h
  rw [h]
  exact List.not_mem_nil

end Scan

end SplitProxy.SyncMap
