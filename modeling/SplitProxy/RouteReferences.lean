import SplitProxy.Admin

/-!
# Route values name existing groups

What a request may change, once for all requests, and the integrity of the names
in Redis: deleting a group is guarded, renaming one is not.
-/
namespace SplitProxy.Admin

open Runs GoText SyncMap

variable {d : Bytes} {s t : Store} {r : Request}

/-! ## Fields -/

theorem groupNameField_valid {self : Option Nat} {text name : Bytes} (hd : d ≠ [])
    (h : groupNameField d s self text = .valid name) :
    name ≠ d ∧ name = strip text ∧ ∀ g ∈ s.groups, some g.pk ≠ self → g.groupName ≠ name := by
  have hothers : ∀ {n : Bytes},
      ¬(s.groups.filter (fun g => some g.pk ≠ self)).any (·.groupName = n) = true →
        ∀ g ∈ s.groups, some g.pk ≠ self → g.groupName ≠ n := by
    intro n hn g hg hs he
    refine hn (List.any_eq_true.mpr ⟨g, List.mem_filter.mpr ⟨hg, by simpa using hs⟩, ?_⟩)
    simpa using he
  unfold groupNameField at h
  dsimp only at h
  split at h
  · rename_i hs
    split at h
    · cases h
    · rename_i hn
      cases h
      exact ⟨Ne.symm hd, hs.symm, hothers hn⟩
  · rename_i hs
    split at h
    · cases h
    · rename_i n hc
      split at h
      · cases h
      · rename_i hn
        split at h
        · cases h
        · rename_i hnd
          cases h
          refine ⟨hnd, ?_, hothers hn⟩
          unfold charField at hc
          rw [if_neg hs] at hc
          split at hc
          · cases hc
          · split at hc
            · cases hc
            · exact (Option.some.inj hc).symm

theorem getGroup_some {pk : Nat} {g : WorkerGroup} (h : getGroup s pk = some g) :
    g ∈ s.groups ∧ g.pk = pk :=
  ⟨List.mem_of_find?_eq_some h, by simpa using List.find?_some h⟩

theorem workerGroupField_group {f : GroupField} {g : WorkerGroup}
    (h : workerGroupField s f = .group (some g)) : g ∈ s.groups := by
  cases f with
  | absent => cases h
  | null => cases h
  | pk n =>
    rw [workerGroupField] at h
    split at h
    · cases h
    · split at h
      · cases h
      · rename_i g' hg
        cases h
        exact (getGroup_some hg).1

/-! ## What a request may change -/

/-- What is known of a change a request makes. -/
def Sound (d : Bytes) (s : Store) (r : Request) : Change → Prop
  | .none => True
  | .addGroup name => name ≠ d ∧ (∃ text, name = strip text) ∧ ∀ g ∈ s.groups, g.groupName ≠ name
  | .renameGroup pk name =>
    (∃ text, r = .updateGroup pk (some text) ∧ groupNameField d s (some pk) text = .valid name) ∧
      ∃ g, getGroup s pk = some g
  | .dropGroup pk => ∃ g, getGroup s pk = some g ∧ workerGroupHasRoutes s g = false
  | .setDomains _ g => ∀ g', g = some g' → g' ∈ s.groups
  | .dropDomain _ => True
  | .setCIDRs _ g => ∀ g', g = some g' → g' ∈ s.groups
  | .dropCIDR _ => True
  | .setDefault name => name = d ∨ ∃ g ∈ s.groups, g.groupName = name

theorem handle_sound (hd : d ≠ []) (s : Store) (r : Request) : Sound d s r (handle d s r).2 := by
  have hset : ∀ {f g}, workerGroupField s f = .group g → ∀ g', g = some g' → g' ∈ s.groups := by
    intro f g hf g' hg
    subst hg
    exact workerGroupField_group hf
  cases r with
  | createGroup name =>
    simp only [handle, createGroup]
    split
    · trivial
    · trivial
    · rename_i n hn
      obtain ⟨hne, htext, hother⟩ := groupNameField_valid hd hn
      exact ⟨hne, ⟨_, htext⟩, fun g hg => hother g hg nofun⟩
  | updateGroup pk name =>
    simp only [handle, updateGroup]
    split
    · trivial
    · rename_i g hg
      split
      · trivial
      · rename_i text
        split
        · trivial
        · trivial
        · rename_i n hn
          exact ⟨⟨text, rfl, hn⟩, g, hg⟩
  | deleteGroup pk =>
    simp only [handle, deleteGroup]
    split
    · trivial
    · rename_i g hg
      split
      · trivial
      · rename_i hu
        exact ⟨g, hg, by simpa using hu⟩
  | createDomains patterns group =>
    simp only [handle, createDomains]
    split
    · trivial
    · trivial
    · trivial
    · trivial
    · rename_i hf
      exact hset hf
  | updateDomain pattern group =>
    simp only [handle, updateDomain]
    split
    · trivial
    · trivial
    · trivial
    · rename_i hf
      exact hset hf
  | deleteDomain pattern =>
    simp only [handle, deleteDomain]
    split <;> trivial
  | createCIDRs cidrs group =>
    simp only [handle, createCIDRs]
    split
    · trivial
    · trivial
    · trivial
    · trivial
    · rename_i hf
      exact hset hf
  | updateCIDR cidr group =>
    simp only [handle, updateCIDR]
    split
    · trivial
    · trivial
    · split
      · trivial
      · split
        · rename_i hf
          exact hset hf
        · trivial
  | deleteCIDR cidr =>
    simp only [handle, deleteCIDR]
    split <;> trivial
  | clearCIDRs => trivial
  | updateDefault group =>
    simp only [handle, updateDefault]
    split
    · trivial
    · split
      · exact Or.inl rfl
      · split
        · trivial
        · rename_i g hg
          exact Or.inr ⟨g, (getGroup_some hg).1, rfl⟩

/-! ## Rows -/

/-- Primary keys and names identify a group, and no group has the name of the
direct route. -/
structure Rows (d : Bytes) (s : Store) : Prop where
  fresh : ∀ g ∈ s.groups, g.pk < s.nextPk
  pk : ∀ g ∈ s.groups, ∀ g' ∈ s.groups, g.pk = g'.pk → g = g'
  name : ∀ g ∈ s.groups, ∀ g' ∈ s.groups, g.groupName = g'.groupName → g = g'
  other : ∀ g ∈ s.groups, g.groupName ≠ d

theorem rows_installed (d : Bytes) : Rows d (installed d) := ⟨nofun, nofun, nofun, nofun⟩

theorem rename_pk (pk : Nat) (name : Bytes) (g : WorkerGroup) : (rename pk name g).pk = g.pk := by
  unfold rename
  split <;> rfl

theorem rename_self {pk : Nat} {name : Bytes} {g : WorkerGroup} (h : g.pk = pk) :
    (rename pk name g).groupName = name := by
  rw [rename, if_pos h]

theorem rename_other {pk : Nat} {name : Bytes} {g : WorkerGroup} (h : g.pk ≠ pk) :
    rename pk name g = g := if_neg h

theorem rows_apply (hd : d ≠ []) (hi : Rows d s) {c : Change} (hc : Sound d s r c) :
    Rows d (apply s c) := by
  cases c with
  | addGroup name =>
    obtain ⟨hne, -, hnew⟩ := hc
    have hmem : ∀ {g}, g ∈ s.groups ++ [⟨s.nextPk, name⟩] → g ∈ s.groups ∨ g = ⟨s.nextPk, name⟩ :=
      fun h => by simpa using h
    constructor
    · intro g hg
      rcases hmem hg with hg | rfl
      · exact Nat.lt_succ_of_lt (hi.fresh g hg)
      · exact Nat.lt_succ_self _
    · intro g hg g' hg' he
      rcases hmem hg with hg | rfl <;> rcases hmem hg' with hg' | rfl
      · exact hi.pk g hg g' hg' he
      · have hlt := hi.fresh g hg
        rw [he] at hlt
        exact absurd hlt (Nat.lt_irrefl _)
      · have hlt := hi.fresh g' hg'
        rw [← he] at hlt
        exact absurd hlt (Nat.lt_irrefl _)
      · rfl
    · intro g hg g' hg' he
      rcases hmem hg with hg | rfl <;> rcases hmem hg' with hg' | rfl
      · exact hi.name g hg g' hg' he
      · exact absurd he (hnew g hg)
      · exact absurd he.symm (hnew g' hg')
      · rfl
    · intro g hg
      rcases hmem hg with hg | rfl
      · exact hi.other g hg
      · exact hne
  | renameGroup pk name =>
    obtain ⟨⟨text, -, hv⟩, -⟩ := hc
    obtain ⟨hne, -, hother⟩ := groupNameField_valid hd hv
    have hname : ∀ g ∈ s.groups, g.pk ≠ pk → g.groupName ≠ name :=
      fun g hg hp => hother g hg fun he => hp (Option.some.inj he)
    constructor
    · intro g hg
      obtain ⟨g, hm, rfl⟩ := List.mem_map.mp hg
      rw [rename_pk]
      exact hi.fresh g hm
    · intro g hg g' hg' he
      obtain ⟨g, hm, rfl⟩ := List.mem_map.mp hg
      obtain ⟨g', hm', rfl⟩ := List.mem_map.mp hg'
      rw [rename_pk, rename_pk] at he
      rw [hi.pk g hm g' hm' he]
    · intro g hg g' hg' he
      obtain ⟨g, hm, rfl⟩ := List.mem_map.mp hg
      obtain ⟨g', hm', rfl⟩ := List.mem_map.mp hg'
      by_cases hp : g.pk = pk <;> by_cases hp' : g'.pk = pk
      · rw [hi.pk g hm g' hm' (hp.trans hp'.symm)]
      · rw [rename_self hp, rename_other hp'] at he
        exact absurd he.symm (hname g' hm' hp')
      · rw [rename_other hp, rename_self hp'] at he
        exact absurd he (hname g hm hp)
      · rw [rename_other hp, rename_other hp'] at he ⊢
        exact hi.name g hm g' hm' he
    · intro g hg
      obtain ⟨g, hm, rfl⟩ := List.mem_map.mp hg
      by_cases hp : g.pk = pk
      · rw [rename_self hp]
        exact hne
      · rw [rename_other hp]
        exact hi.other g hm
  | dropGroup pk =>
    have hmem : ∀ {g}, g ∈ s.groups.filter (·.pk ≠ pk) → g ∈ s.groups :=
      fun h => (List.mem_filter.mp h).1
    exact ⟨fun g hg => hi.fresh g (hmem hg), fun g hg g' hg' => hi.pk g (hmem hg) g' (hmem hg'),
      fun g hg g' hg' => hi.name g (hmem hg) g' (hmem hg'), fun g hg => hi.other g (hmem hg)⟩
  | none => exact hi
  | setDomains patterns g => exact ⟨hi.fresh, hi.pk, hi.name, hi.other⟩
  | dropDomain pattern => exact ⟨hi.fresh, hi.pk, hi.name, hi.other⟩
  | setCIDRs cidrs g => exact ⟨hi.fresh, hi.pk, hi.name, hi.other⟩
  | dropCIDR cidr => exact ⟨hi.fresh, hi.pk, hi.name, hi.other⟩
  | setDefault name => exact ⟨hi.fresh, hi.pk, hi.name, hi.other⟩

theorem rows_step (hd : d ≠ []) (hi : Rows d s) (h : step d s r = some t) : Rows d t := by
  cases h
  exact rows_apply hd hi (handle_sound hd s r)

/-! ## Hashes -/

/-- An entry of a hash after the writes is one of them, or an old one under another key. -/
theorem mem_of_hsetAll {hash : Entries Bytes Bytes} {keys : List Bytes} {v : Bytes}
    {e : Bytes × Bytes} (h : e ∈ hsetAll hash keys v) :
    e ∈ hash ∧ e.1 ∉ keys ∨ e.1 ∈ keys ∧ e.2 = v := by
  unfold hsetAll at h
  induction keys generalizing hash with
  | nil => exact Or.inl ⟨h, List.not_mem_nil⟩
  | cons k ks ih =>
    rcases ih h with ⟨h, hk⟩ | ⟨hk, hv⟩
    · rcases List.mem_cons.mp h with rfl | h
      · exact Or.inr ⟨List.mem_cons_self, rfl⟩
      · obtain ⟨h, hne⟩ := List.mem_filter.mp h
        have hek : e.1 ≠ k := by simpa using hne
        exact Or.inl ⟨h, fun hm => (List.mem_cons.mp hm).elim hek hk⟩
    · exact Or.inr ⟨List.mem_cons_of_mem k hk, hv⟩

theorem mem_hsetAll_old {hash : Entries Bytes Bytes} {keys : List Bytes} {v : Bytes}
    {e : Bytes × Bytes} (h : e ∈ hash) (hk : e.1 ∉ keys) : e ∈ hsetAll hash keys v := by
  unfold hsetAll
  induction keys generalizing hash with
  | nil => exact h
  | cons k ks ih =>
    rw [List.mem_cons, not_or] at hk
    apply ih _ hk.2
    exact List.mem_cons_of_mem _ (List.mem_filter.mpr ⟨h, by simpa using hk.1⟩)

theorem mem_hsetAll {hash : Entries Bytes Bytes} {keys : List Bytes} {k v : Bytes} (h : k ∈ keys) :
    (k, v) ∈ hsetAll hash keys v := by
  induction keys generalizing hash with
  | nil => cases h
  | cons k' ks ih =>
    rw [hsetAll, List.foldl_cons]
    by_cases hk : k ∈ ks
    · exact ih hk
    · have he : k = k' := (List.mem_cons.mp h).resolve_right hk
      subst he
      have hstored : (k, v) ∈ store hash k v := List.mem_cons_self
      exact mem_hsetAll_old hstored hk

/-! ## Integrity -/

/-- The direct route's name or the name of a group. -/
def Names (d : Bytes) (s : Store) (value : Bytes) : Prop :=
  value = directRoute ∨ value = d ∨ ∃ g ∈ s.groups, g.groupName = value

/-- The values Redis holds. -/
def Held (s : Store) (value : Bytes) : Prop :=
  (∃ k, (k, value) ∈ s.domains) ∨ (∃ k, (k, value) ∈ s.cidrs) ∨ s.defaultRoute = some value

def Integrity (d : Bytes) (s : Store) : Prop := ∀ value, Held s value → Names d s value

/-- An accepted new name is given to a group only when no route has the old one,
or when that is the name of the direct route. -/
def RenamesUnused (d : Bytes) (s : Store) : Request → Prop
  | .updateGroup pk (some text) =>
    ∀ g name, getGroup s pk = some g → groupNameField d s (some pk) text = .valid name →
      name ≠ g.groupName → workerGroupHasRoutes s g = false ∨ g.groupName = directRoute
  | _ => True

theorem hasRoutes_iff {g : WorkerGroup} :
    workerGroupHasRoutes s g = true ↔ Held s g.groupName := by
  simp only [workerGroupHasRoutes, Held, Bool.or_eq_true, List.any_eq_true, decide_eq_true_eq,
    Prod.exists, exists_eq_right, or_assoc]

theorem names_routeName {g : Option WorkerGroup} (h : ∀ g', g = some g' → g' ∈ s.groups) :
    Names d s (routeName g) := by
  cases g with
  | none => exact Or.inl rfl
  | some g => exact Or.inr (Or.inr ⟨g, h g rfl, rfl⟩)

/-- Requests on routes leave the groups alone. -/
theorem integrity_routes (hP : Integrity d s) (hg : t.groups = s.groups)
    (hheld : ∀ v, Held t v → Held s v ∨ Names d s v) : Integrity d t := by
  intro v hv
  have hn : Names d s v := by
    rcases hheld v hv with hv | hv
    · exact hP v hv
    · exact hv
  unfold Names at hn ⊢
  rw [hg]
  exact hn

theorem integrity_apply (hd : d ≠ []) (hi : Rows d s) (hP : Integrity d s)
    (hC : RenamesUnused d s r) {c : Change} (hc : Sound d s r c) : Integrity d (apply s c) := by
  cases c with
  | none => exact hP
  | addGroup name =>
    intro v hv
    rcases hP v hv with h | h | ⟨g, hg, h⟩
    · exact Or.inl h
    · exact Or.inr (Or.inl h)
    · exact Or.inr (Or.inr ⟨g, List.mem_append_left _ hg, h⟩)
  | renameGroup pk name =>
    obtain ⟨⟨text, rfl, hv⟩, g₀, hg₀⟩ := hc
    obtain ⟨hmem₀, hpk₀⟩ := getGroup_some hg₀
    intro v hheld
    rcases hP v hheld with h | h | ⟨g, hg, h⟩
    · exact Or.inl h
    · exact Or.inr (Or.inl h)
    · by_cases hp : g.pk = pk
      · have hgg : g = g₀ := hi.pk g hg g₀ hmem₀ (hp.trans hpk₀.symm)
        subst hgg
        by_cases hn : name = g.groupName
        · exact Or.inr (Or.inr ⟨_, List.mem_map_of_mem hg, by rw [rename_self hp, hn, h]⟩)
        · rcases hC g name hg₀ hv hn with hu | hdirect
          · have hused : workerGroupHasRoutes s g = true := hasRoutes_iff.mpr (h.symm ▸ hheld)
            rw [hu] at hused
            cases hused
          · exact Or.inl (h ▸ hdirect)
      · exact Or.inr (Or.inr ⟨_, List.mem_map_of_mem hg, by rw [rename_other hp, h]⟩)
  | dropGroup pk =>
    obtain ⟨g₀, hg₀, hu⟩ := hc
    obtain ⟨hmem₀, hpk₀⟩ := getGroup_some hg₀
    intro v hheld
    rcases hP v hheld with h | h | ⟨g, hg, h⟩
    · exact Or.inl h
    · exact Or.inr (Or.inl h)
    · have hp : g.pk ≠ pk := by
        intro hp
        have hgg : g = g₀ := hi.pk g hg g₀ hmem₀ (hp.trans hpk₀.symm)
        subst hgg
        have hused : workerGroupHasRoutes s g = true := hasRoutes_iff.mpr (h.symm ▸ hheld)
        rw [hu] at hused
        cases hused
      exact Or.inr (Or.inr ⟨g, List.mem_filter.mpr ⟨hg, by simpa using hp⟩, h⟩)
  | setDomains patterns g =>
    refine integrity_routes hP rfl fun v hv => ?_
    rcases hv with ⟨k, hk⟩ | hv
    · rcases mem_of_hsetAll hk with ⟨hk, -⟩ | ⟨-, rfl⟩
      · exact Or.inl (Or.inl ⟨k, hk⟩)
      · exact Or.inr (names_routeName hc)
    · exact Or.inl (Or.inr hv)
  | dropDomain pattern =>
    refine integrity_routes hP rfl fun v hv => Or.inl ?_
    rcases hv with ⟨k, hk⟩ | hv
    · exact Or.inl ⟨k, (List.mem_filter.mp hk).1⟩
    · exact Or.inr hv
  | setCIDRs cidrs g =>
    refine integrity_routes hP rfl fun v hv => ?_
    rcases hv with hv | ⟨k, hk⟩ | hv
    · exact Or.inl (Or.inl hv)
    · rcases mem_of_hsetAll hk with ⟨hk, -⟩ | ⟨-, rfl⟩
      · exact Or.inl (Or.inr (Or.inl ⟨k, hk⟩))
      · exact Or.inr (names_routeName hc)
    · exact Or.inl (Or.inr (Or.inr hv))
  | dropCIDR cidr =>
    refine integrity_routes hP rfl fun v hv => Or.inl ?_
    rcases hv with hv | ⟨k, hk⟩ | hv
    · exact Or.inl hv
    · exact Or.inr (Or.inl ⟨k, (List.mem_filter.mp hk).1⟩)
    · exact Or.inr (Or.inr hv)
  | setDefault name =>
    refine integrity_routes hP rfl fun v hv => ?_
    rcases hv with hv | hv | hv
    · exact Or.inl (Or.inl hv)
    · exact Or.inl (Or.inr (Or.inl hv))
    · cases hv
      rcases hc with rfl | ⟨g, hg, rfl⟩
      · exact Or.inr (Or.inr (Or.inl rfl))
      · exact Or.inr (Or.inr (Or.inr ⟨g, hg, rfl⟩))

/-- A rename the condition excludes leaves the old name behind in Redis. -/
theorem rename_dangles (hi : Rows d s) (hC : ¬RenamesUnused d s r) :
    ∃ t, step d s r = some t ∧ ¬Integrity d t := by
  cases r with
  | updateGroup pk name =>
    cases name with
    | none => exact absurd trivial hC
    | some text =>
      simp only [RenamesUnused, not_forall, not_or, Bool.not_eq_false] at hC
      obtain ⟨g, name, hg, hv, hne, hused, hdirect⟩ := hC
      obtain ⟨hmem, hpk⟩ := getGroup_some hg
      have hchange : (handle d s (.updateGroup pk (some text))).2 = .renameGroup pk name := by
        simp only [handle, updateGroup, hg, hv]
      refine ⟨_, rfl, fun hP => ?_⟩
      rw [hchange] at hP
      rcases hP g.groupName (hasRoutes_iff.mp hused) with h | h | ⟨g', hg', h⟩
      · exact hdirect h
      · exact hi.other g hmem h
      · obtain ⟨g₁, hg₁, rfl⟩ := List.mem_map.mp hg'
        by_cases hp : g₁.pk = pk
        · rw [rename_self hp] at h
          exact hne h
        · rw [rename_other hp] at h
          have hgg := hi.name g₁ hg₁ g hmem h
          exact hp (hgg ▸ hpk)
  | createGroup name => exact absurd trivial hC
  | deleteGroup pk => exact absurd trivial hC
  | createDomains patterns group => exact absurd trivial hC
  | updateDomain pattern group => exact absurd trivial hC
  | deleteDomain pattern => exact absurd trivial hC
  | createCIDRs cidrs group => exact absurd trivial hC
  | updateCIDR cidr group => exact absurd trivial hC
  | deleteCIDR cidr => exact absurd trivial hC
  | clearCIDRs => exact absurd trivial hC
  | updateDefault group => exact absurd trivial hC

theorem integrity_installed (d : Bytes) : Integrity d (installed d) := by
  intro v hv
  rcases hv with ⟨k, hk⟩ | ⟨k, hk⟩ | hv
  · cases hk
  · cases hk
  · cases hv
    exact Or.inr (Or.inl rfl)

/-- The names in Redis refer to groups throughout exactly the runs that rename no
group with routes. -/
theorem integrity_iff_renames_unused (d : Bytes) (hd : d ≠ []) (rs : List Request) :
    Always (step d) (Integrity d) (installed d) rs ↔
      Meets (step d) (RenamesUnused d) (installed d) rs := by
  refine always_iff_meets (fun _ _ _ hi h => rows_step hd hi h) ?_
    (fun _ _ hi _ hC => rename_dangles hi hC) (rows_installed d) (integrity_installed d)
  intro s r t hi hP hC h
  cases h
  exact integrity_apply hd hi hP hC (handle_sound hd s r)

/-- A group `eu` with the rule `a.b` is renamed to `us`. -/
def renameRun : List Request :=
  [.createGroup (some [0x65, 0x75]), .createDomains [[0x61, 0x2E, 0x62]] (.pk 1),
   .updateGroup 1 (some [0x75, 0x73])]

theorem integrity_iff_direct :
    Always (step directRoute) (Integrity directRoute) (installed directRoute) renameRun ↔
      Meets (step directRoute) (RenamesUnused directRoute) (installed directRoute) renameRun :=
  integrity_iff_renames_unused directRoute (by decide) renameRun

theorem renamed_group_dangles : ∃ s, run (step directRoute) (installed directRoute) renameRun = some s ∧
    ¬Integrity directRoute s := by
  refine ⟨⟨[⟨1, [0x75, 0x73]⟩], 2, [([0x61, 0x2E, 0x62], [0x65, 0x75])], [], some directRoute⟩,
    by decide +kernel, fun h => ?_⟩
  rcases h [0x65, 0x75] (Or.inl ⟨_, List.mem_cons_self⟩) with h | h | ⟨g, hg, h⟩
  · exact absurd h (by decide)
  · exact absurd h (by decide)
  · cases List.mem_singleton.mp hg
    exact absurd h (by decide)

end SplitProxy.Admin
