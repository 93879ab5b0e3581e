import SplitProxy.DirectName

/-!
# What the domain hash can hold

Every key of the hash has passed the validation of patterns and every value is the
constant or a name that passes the validation of group names. Each such pair can be
the only one.
-/
namespace SplitProxy.Admin

open Runs GoText SyncMap

variable {d : Bytes} {s t : Store} {r : Request}

/-- A name some request gets past the validation of group names. -/
def NameText (d name : Bytes) : Prop :=
  ∃ text, groupNameField d (installed d) none text = .valid name

/-- A key some request gets past the validation of patterns. -/
def PatternText (key : Bytes) : Prop := ∃ text, charField 255 text = some key

/-- A route value: the constant or a valid name. -/
def ValueText (d value : Bytes) : Prop := value = directRoute ∨ NameText d value

structure Formed (d : Bytes) (s : Store) : Prop where
  groups : ∀ g ∈ s.groups, NameText d g.groupName
  domains : ∀ k v, (k, v) ∈ s.domains → PatternText k ∧ ValueText d v
  functional : Functional s.domains

theorem formed_installed (d : Bytes) : Formed d (installed d) := ⟨nofun, nofun, functional_nil⟩

/-- The other groups only add refusals. -/
theorem nameText_of_valid {self : Option Nat} {text name : Bytes}
    (h : groupNameField d s self text = .valid name) : NameText d name := by
  refine ⟨text, ?_⟩
  unfold groupNameField at h ⊢
  simp only [installed, List.filter_nil, List.any_nil, Bool.false_eq_true, ↓reduceIte] at h ⊢
  split at h
  · rename_i hs
    rw [if_pos hs]
    split at h
    · cases h
    · exact h
  · rename_i hs
    rw [if_neg hs]
    cases hc : charField 255 text with
    | none =>
      rw [hc] at h
      cases h
    | some n =>
      rw [hc] at h
      simp only at h ⊢
      split at h
      · cases h
      · exact h

theorem valueText_routeName (hi : Formed d s) {f : GroupField} {g : Option WorkerGroup}
    (hg : workerGroupField s f = .group g) : ValueText d (routeName g) := by
  cases g with
  | none => exact Or.inl rfl
  | some g => exact Or.inr (hi.groups g (workerGroupField_group hg))

/-- What is known of the names and keys a request writes. -/
def WellWritten (d : Bytes) : Change → Prop
  | .addGroup name => NameText d name
  | .renameGroup _ name => NameText d name
  | .setDomains patterns g => (∀ k ∈ patterns, PatternText k) ∧ ValueText d (routeName g)
  | _ => True

theorem handle_wellWritten (hi : Formed d s) (r : Request) : WellWritten d (handle d s r).2 := by
  cases r with
  | createGroup name =>
    simp only [handle, createGroup]
    split
    · trivial
    · trivial
    · exact nameText_of_valid ‹_›
  | updateGroup pk name =>
    simp only [handle, updateGroup]
    split
    · trivial
    · split
      · trivial
      · split
        · trivial
        · trivial
        · exact nameText_of_valid ‹_›
  | deleteGroup pk =>
    simp only [handle, deleteGroup]
    split
    · trivial
    · split <;> trivial
  | createDomains patterns group =>
    simp only [handle, createDomains]
    split
    · trivial
    · trivial
    · trivial
    · trivial
    · rename_i ks g hne hk hg
      refine ⟨fun k hmem => ?_, valueText_routeName hi hg⟩
      have hall := mapM_forall₂ hk
      clear hne hk
      induction hall with
      | nil => cases hmem
      | cons hf _ ih =>
        rcases List.mem_cons.mp hmem with rfl | hmem
        · exact ⟨_, hf⟩
        · exact ih hmem
  | updateDomain pattern group =>
    simp only [handle, updateDomain]
    split
    · trivial
    · trivial
    · trivial
    · rename_i k g hk hg
      refine ⟨fun k' hk' => ?_, valueText_routeName hi hg⟩
      cases List.mem_singleton.mp hk'
      exact ⟨_, hk⟩
  | deleteDomain pattern =>
    simp only [handle, deleteDomain]
    split <;> trivial
  | createCIDRs cidrs group =>
    simp only [handle, createCIDRs]
    split <;> trivial
  | updateCIDR cidr group =>
    simp only [handle, updateCIDR]
    split
    · trivial
    · trivial
    · split
      · trivial
      · split <;> trivial
  | deleteCIDR cidr =>
    simp only [handle, deleteCIDR]
    split <;> trivial
  | clearCIDRs => trivial
  | updateDefault group =>
    simp only [handle, updateDefault]
    split
    · trivial
    · split
      · trivial
      · split <;> trivial

theorem functional_hsetAll {hash : Entries Bytes Bytes} (h : Functional hash) (keys : List Bytes)
    (v : Bytes) : Functional (hsetAll hash keys v) := by
  unfold hsetAll
  induction keys generalizing hash with
  | nil => exact h
  | cons k ks ih => exact ih (h.store k v)

theorem formed_step (hi : Formed d s) (h : step d s r = some t) : Formed d t := by
  have hw := handle_wellWritten hi r
  cases h
  revert hw
  cases (handle d s r).2 with
  | none => exact fun _ => hi
  | addGroup name =>
    intro hw
    refine ⟨fun g hg => ?_, hi.domains, hi.functional⟩
    rcases List.mem_append.mp hg with hg | hg
    · exact hi.groups g hg
    · cases List.mem_singleton.mp hg
      exact hw
  | renameGroup pk name =>
    intro hw
    refine ⟨fun g hg => ?_, hi.domains, hi.functional⟩
    obtain ⟨g₀, hg₀, rfl⟩ := List.mem_map.mp hg
    by_cases hp : g₀.pk = pk
    · rw [rename_self hp]
      exact hw
    · rw [rename_other hp]
      exact hi.groups g₀ hg₀
  | dropGroup pk =>
    exact fun _ => ⟨fun g hg => hi.groups g (List.mem_filter.mp hg).1, hi.domains, hi.functional⟩
  | setDomains patterns g =>
    rintro ⟨hkeys, hvalue⟩
    refine ⟨hi.groups, fun k v hkv => ?_, functional_hsetAll hi.functional _ _⟩
    rcases mem_of_hsetAll hkv with ⟨hold, -⟩ | ⟨hk, rfl⟩
    · exact hi.domains k v hold
    · exact ⟨hkeys k hk, hvalue⟩
  | dropDomain pattern =>
    exact fun _ => ⟨hi.groups, fun k v hkv => hi.domains k v (List.mem_filter.mp hkv).1,
      hi.functional.delete pattern⟩
  | setCIDRs cidrs g => exact fun _ => ⟨hi.groups, hi.domains, hi.functional⟩
  | dropCIDR cidr => exact fun _ => ⟨hi.groups, hi.domains, hi.functional⟩
  | setDefault name => exact fun _ => ⟨hi.groups, hi.domains, hi.functional⟩

theorem formed_run {rs : List Request} (h : run (step d) (installed d) rs = some s) : Formed d s :=
  run_preserves (fun _ _ _ => formed_step) (formed_installed d) h

/-! ## A hash with one rule -/

theorem groupNameField_beside {text name : Bytes}
    (h : groupNameField d (installed d) none text = .valid name)
    (hs : ∀ g ∈ s.groups, g.groupName ≠ name) : groupNameField d s none text = .valid name := by
  have hnone : ∀ self, (s.groups.filter fun g => some g.pk ≠ self).any (·.groupName = name) = false := by
    intro self
    rw [List.any_eq_false]
    intro g hg
    simpa using hs g (List.mem_filter.mp hg).1
  unfold groupNameField at h ⊢
  simp only [installed, List.filter_nil, List.any_nil, Bool.false_eq_true, ↓reduceIte] at h ⊢
  split at h
  · rename_i hb
    cases h
    rw [if_pos hb, hnone]
    rfl
  · rename_i hb
    rw [if_neg hb]
    cases hc : charField 255 text with
    | none =>
      rw [hc] at h
      cases h
    | some n =>
      rw [hc] at h
      simp only at h ⊢
      split at h
      · cases h
      · rename_i hd
        cases h
        rw [hnone, if_neg Bool.false_ne_true, if_neg hd]

/-- A name that is neither of two. -/
theorem exists_fresh (d r : Bytes) : ∃ f, f ≠ r ∧ f ≠ [] ∧ trimSpace f = f ∧
    groupNameField d (installed d) none f = .valid f := by
  have hvalid : ∀ c : UInt8, c ∈ [0x67, 0x68, 0x69] → strip [c] ≠ [] ∧ charField 255 [c] = some [c] ∧
      trimSpace [c] = [c] := by decide +kernel
  have hfresh : ∃ c : UInt8, c ∈ [0x67, 0x68, 0x69] ∧ [c] ≠ r ∧ [c] ≠ d := by
    by_contra hno
    have hnot : ∀ c : UInt8, c ∈ [0x67, 0x68, 0x69] → [c] = r ∨ [c] = d := by
      intro c hc
      by_contra hor
      rw [not_or] at hor
      exact hno ⟨c, hc, hor⟩
    rcases hnot 0x67 (by decide) with rfl | rfl
    · have h1 := (hnot 0x68 (by decide)).resolve_left (by decide)
      have h2 := (hnot 0x69 (by decide)).resolve_left (by decide)
      exact absurd (h1.trans h2.symm) (by decide)
    · have h1 := (hnot 0x68 (by decide)).resolve_right (by decide)
      have h2 := (hnot 0x69 (by decide)).resolve_right (by decide)
      exact absurd (h1.trans h2.symm) (by decide)
  obtain ⟨c, hc, hr, hd⟩ := hfresh
  obtain ⟨hne, hfield, htrim⟩ := hvalid c hc
  refine ⟨[c], hr, by simp, htrim, ?_⟩
  simp [groupNameField, hne, hfield, hd, installed]

/-- The hash can hold just this rule, with another route as the default. -/
theorem exists_sole {p v : Bytes} (hp : PatternText p) (hv : ValueText d v) :
    ∃ rs s f, run (step d) (installed d) rs = some s ∧ s.domains = [(p, v)] ∧ s.cidrs = [] ∧
      s.defaultRoute = some f ∧ trimSpace f = f ∧ f ≠ [] ∧ f ≠ v := by
  obtain ⟨text, htext⟩ := hp
  obtain ⟨f, hfr, hfne, hftrim, hvalid⟩ := exists_fresh d v
  have hfirst : ∀ rs, run (step d) (installed d)
      (.createGroup (some f) :: .updateDefault (some 1) :: rs) =
      run (step d) ⟨[⟨1, f⟩], 2, [], [], some f⟩ rs := by
    intro rs
    have hcreated : handle d (installed d) (.createGroup (some f)) = (.group 201 1 f, .addGroup f) := by
      rw [handle, createGroup, Option.getD_some, hvalid]
      rfl
    rw [run_cons, step, hcreated]
    rfl
  rcases hv with rfl | ⟨name, hname⟩
  · refine ⟨[.createGroup (some f), .updateDefault (some 1), .createDomains [text] .null], _, f,
      hfirst _, ?_⟩
    simp [handle, createDomains, htext, workerGroupField, apply, hsetAll, store, delete,
      routeName, hftrim, hfne, hfr]
  · have hbeside := @groupNameField_beside d ⟨[⟨1, f⟩], 2, [], [], some f⟩ _ _ hname (by simpa using hfr)
    refine ⟨[.createGroup (some f), .updateDefault (some 1), .createGroup (some name),
      .createDomains [text] (.pk 2)], _, f, hfirst _, ?_⟩
    simp [handle, createGroup, hbeside, createDomains, htext, workerGroupField, getGroup, apply,
      hsetAll, store, delete, routeName, hftrim, hfne, hfr]

end SplitProxy.Admin
