import Mathlib.Algebra.BigOperators.Group.Multiset.Basic
import SplitProxy.PyInt
import SplitProxy.Admin

/-!
# The route listings

`get_domain_routes` and `get_cidr_routes` filter a route hash by a search text and by
a group: the one collects first and filters by group afterwards, the other does both
in its loop and may leave it early. `str.lower` stays a parameter; both use it the
same way.
-/
namespace SplitProxy.Admin

open GoText NetIP SyncMap

/-- `"none"`. -/
def noneText : Bytes := [0x6E, 0x6F, 0x6E, 0x65]

/-- What `get_domain_routes` lists. -/
structure DomainItem where
  pattern : Bytes
  group : Option Nat
  deriving DecidableEq, Repr

/-- What `get_cidr_routes` lists. -/
structure CIDRItem where
  cidr : Bytes
  workerGroup : Option Nat
  deriving DecidableEq, Repr

/-- The dictionary from group names to keys; a name that comes again takes over. -/
def groupsByName (groups : List WorkerGroup) : Entries Bytes Nat :=
  groups.foldl (fun m g => store m g.groupName g.pk) []

def workerGroupOf (groups : List WorkerGroup) (name : Bytes) : Option Nat :=
  if name = directRoute then some 0 else load (groupsByName groups) name

/-- `search.strip().lower() if search else None`. -/
def searchText (lower : Bytes → Bytes) : Option Bytes → Option Bytes
  | none => none
  | some search => if search = [] then none else some (lower (strip search))

/-- `search and search not in key.lower()`. -/
def leftOut (lower : Bytes → Bytes) (search : Option Bytes) (key : Bytes) : Bool :=
  match search with
  | none => false
  | some search => search ≠ [] ∧ ¬search <:+: lower key

/-- `get_domain_routes` on the hash, the groups and its two arguments. -/
def getDomainRoutes (lower : Bytes → Bytes) (groups : List WorkerGroup)
    (routes : Entries Bytes Bytes) (search group : Option Bytes) : List DomainItem :=
  let search := searchText lower search
  let kept := routes.filter (fun route => !leftOut lower search route.1)
  let result := kept.map (fun route => ⟨route.1, workerGroupOf groups route.2⟩)
  match group with
  | none => result
  | some group =>
    if group = noneText then result.filter (·.group = none)
    else if group = [] then result
    else
      match Py.int group with
      | none => []
      | some groupId => result.filter (·.group.map (Int.ofNat ·) = some groupId)

/-- The loop of `get_cidr_routes`, with the items collected so far. -/
def cidrLoop (lower : Bytes → Bytes) (groups : List WorkerGroup) (search group : Option Bytes) :
    Entries Bytes Bytes → List CIDRItem → List CIDRItem
  | [], result => result
  | (cidr, groupName) :: routes, result =>
    if leftOut lower search cidr then cidrLoop lower groups search group routes result
    else
      let workerGroup := workerGroupOf groups groupName
      let appended := result ++ [⟨cidr, workerGroup⟩]
      match group with
      | none => cidrLoop lower groups search group routes appended
      | some text =>
        if text = noneText then
          if workerGroup ≠ none then cidrLoop lower groups search group routes result
          else cidrLoop lower groups search group routes appended
        else if text = [] then cidrLoop lower groups search group routes appended
        else
          match Py.int text with
          | none => []
          | some groupId =>
            if workerGroup.map (Int.ofNat ·) ≠ some groupId then
              cidrLoop lower groups search group routes result
            else cidrLoop lower groups search group routes appended

/-- `get_cidr_routes`. -/
def getCIDRRoutes (lower : Bytes → Bytes) (groups : List WorkerGroup)
    (routes : Entries Bytes Bytes) (search group : Option Bytes) : List CIDRItem :=
  cidrLoop lower groups (searchText lower search) group routes []

/-! ## What a group argument keeps -/

/-- The rules a group argument asks for. -/
inductive GroupFilter where
  | all
  | unassigned
  | only (groupId : Int)
  /-- an argument that is no number -/
  | nothing
  deriving DecidableEq, Repr

def groupFilter : Option Bytes → GroupFilter
  | none => .all
  | some group =>
    if group = noneText then .unassigned
    else if group = [] then .all
    else
      match Py.int group with
      | none => .nothing
      | some groupId => .only groupId

def GroupFilter.keeps : GroupFilter → Option Nat → Bool
  | .all, _ => true
  | .unassigned, g => g = none
  | .only groupId, g => g.map (Int.ofNat ·) = some groupId
  | .nothing, _ => false

variable {lower : Bytes → Bytes} {groups : List WorkerGroup} {routes : Entries Bytes Bytes}
  {search group : Option Bytes}

/-- The rules a search leaves, each with its group. -/
def found (lower : Bytes → Bytes) (groups : List WorkerGroup) (routes : Entries Bytes Bytes)
    (search : Option Bytes) : List DomainItem :=
  (routes.filter (fun route => !leftOut lower (searchText lower search) route.1)).map
    (fun route => ⟨route.1, workerGroupOf groups route.2⟩)

theorem getDomainRoutes_eq : getDomainRoutes lower groups routes search group =
    (found lower groups routes search).filter (fun item => (groupFilter group).keeps item.group) := by
  unfold getDomainRoutes groupFilter
  cases group with
  | none => exact (List.filter_true _).symm
  | some group =>
    by_cases hnone : group = noneText
    · simp only [hnone, ↓reduceIte]
      rfl
    · by_cases hempty : group = []
      · simp only [hempty, ↓reduceIte]
        exact (List.filter_true _).symm
      · simp only [hnone, hempty, ↓reduceIte]
        cases Py.int group with
        | none => exact (List.filter_false _).symm
        | some groupId => rfl

/-- The item of the other listing with the same contents. -/
def CIDRItem.renamed (item : CIDRItem) : DomainItem := ⟨item.cidr, item.workerGroup⟩

/-- What one turn of the loop collects when the argument is no failing number. -/
def collected (lower : Bytes → Bytes) (groups : List WorkerGroup) (search group : Option Bytes)
    (route : Bytes × Bytes) : List CIDRItem :=
  if leftOut lower search route.1 then []
  else if (groupFilter group).keeps (workerGroupOf groups route.2) then
    [⟨route.1, workerGroupOf groups route.2⟩]
  else []

theorem cidrLoop_cons (hgroup : groupFilter group ≠ .nothing) (route : Bytes × Bytes)
    (routes : Entries Bytes Bytes) (result : List CIDRItem) :
    cidrLoop lower groups search group (route :: routes) result =
      cidrLoop lower groups search group routes
        (result ++ collected lower groups search group route) := by
  obtain ⟨cidr, name⟩ := route
  rw [cidrLoop]
  unfold collected
  by_cases hleft : leftOut lower search cidr = true
  · simp [hleft]
  · unfold groupFilter at hgroup ⊢
    cases group with
    | none => simp [hleft, GroupFilter.keeps]
    | some text =>
      by_cases hnone : text = noneText
      · by_cases hg : workerGroupOf groups name = none <;>
          simp [hleft, hnone, hg, GroupFilter.keeps]
      · by_cases hempty : text = []
        · subst hempty
          simp [hleft, noneText, GroupFilter.keeps]
        · simp only [hnone, hempty, ↓reduceIte] at hgroup ⊢
          cases hint : Py.int text with
          | none => exact absurd (by rw [hint]) hgroup
          | some id =>
            by_cases hg : (workerGroupOf groups name).map (Int.ofNat ·) = some id <;>
              simp only [hleft, hg, GroupFilter.keeps, Bool.false_eq_true, ↓reduceIte, decide_true,
                decide_false, ne_eq, not_true, not_false_iff, List.append_nil]

theorem renamed_collected (route : Bytes × Bytes) (routes : Entries Bytes Bytes) :
    (collected lower groups (searchText lower search) group route).map CIDRItem.renamed ++
        (found lower groups routes search).filter
          (fun item => (groupFilter group).keeps item.group) =
      (found lower groups (route :: routes) search).filter
        (fun item => (groupFilter group).keeps item.group) := by
  unfold collected found
  by_cases hleft : leftOut lower (searchText lower search) route.1 = true
  · simp [hleft]
  · by_cases hkeep : (groupFilter group).keeps (workerGroupOf groups route.2) = true <;>
      simp [hleft, hkeep, CIDRItem.renamed]

/-- Unless the argument is no number, the loop appends what the filters keep. -/
theorem cidrLoop_collects (hgroup : groupFilter group ≠ .nothing) (routes : Entries Bytes Bytes)
    (result : List CIDRItem) :
    (cidrLoop lower groups (searchText lower search) group routes result).map CIDRItem.renamed =
      result.map CIDRItem.renamed ++ (found lower groups routes search).filter
        (fun item => (groupFilter group).keeps item.group) := by
  induction routes generalizing result with
  | nil => exact (List.append_nil _).symm
  | cons route routes ih =>
    rw [cidrLoop_cons hgroup, ih, List.map_append, List.append_assoc, renamed_collected]

/-- An argument that is no number ends the loop with nothing, at the first rule the
search leaves or after the last. -/
theorem cidrLoop_nothing (hgroup : groupFilter group = .nothing) (routes : Entries Bytes Bytes) :
    cidrLoop lower groups search group routes [] = [] := by
  induction routes with
  | nil => rfl
  | cons route routes ih =>
    obtain ⟨cidr, name⟩ := route
    rw [cidrLoop]
    by_cases hleft : leftOut lower search cidr = true
    · rw [if_pos hleft, ih]
    · rw [if_neg hleft]
      unfold groupFilter at hgroup
      cases group with
      | none => cases hgroup
      | some text =>
        by_cases hnone : text = noneText
        · simp [hnone] at hgroup
        · by_cases hempty : text = []
          · simp [hempty, noneText] at hgroup
          · simp only [hnone, hempty, ↓reduceIte] at hgroup ⊢
            cases hint : Py.int text with
            | none => rfl
            | some id =>
              rw [hint] at hgroup
              cases hgroup

/-- The two listings agree on every hash, search and group. -/
theorem getCIDRRoutes_renamed :
    (getCIDRRoutes lower groups routes search group).map CIDRItem.renamed =
      getDomainRoutes lower groups routes search group := by
  rw [getDomainRoutes_eq, getCIDRRoutes]
  by_cases hgroup : groupFilter group = .nothing
  · rw [cidrLoop_nothing hgroup, hgroup]
    exact (List.filter_false _).symm
  · exact cidrLoop_collects hgroup routes []

/-- Redis may give the same hash in another order. -/
theorem getDomainRoutes_perm {routes' : Entries Bytes Bytes} (h : routes'.Perm routes) :
    (getDomainRoutes lower groups routes' search group).Perm
      (getDomainRoutes lower groups routes search group) := by
  rw [getDomainRoutes_eq, getDomainRoutes_eq]
  exact ((h.filter _).map _).filter _

/-! ## The unfiltered listing -/

/-- No search, or one whose text occurs in the key, whatever the case. -/
def matchesSearch (lower : Bytes → Bytes) : Option Bytes → Bytes → Bool
  | none, _ => true
  | some text, key => text = [] ∨ lower (strip text) <:+: lower key

theorem leftOut_searchText (lower : Bytes → Bytes) (search : Option Bytes) (key : Bytes) :
    leftOut lower (searchText lower search) key = !matchesSearch lower search key := by
  cases search with
  | none => rfl
  | some text =>
    by_cases hempty : text = []
    · simp [searchText, leftOut, matchesSearch, hempty]
    · by_cases hlower : lower (strip text) = []
      · simp [searchText, leftOut, matchesSearch, hempty, hlower]
      · simp [searchText, leftOut, matchesSearch, hempty, hlower]

/-! ## The partition -/

/-- The group of a rule: 0 for direct, else the key of the group of that name, if any. -/
def OwnGroup (groups : List WorkerGroup) (name : Bytes) (group : Option Nat) : Prop :=
  if name = directRoute then group = some 0
  else ∀ pk, group = some pk ↔ ∃ g ∈ groups, g.groupName = name ∧ g.pk = pk

/-- Classes with different keys are disjoint parts of the elements with these keys. -/
theorem sum_classes {α κ : Type} [DecidableEq κ] (key : α → κ) (s : Multiset α) {keys : List κ}
    (hkeys : keys.Nodup) :
    (keys.map fun k => s.filter (fun a => key a = k)).sum = s.filter (fun a => key a ∈ keys) := by
  induction keys with
  | nil => simp
  | cons k keys ih =>
    obtain ⟨hk, hrest⟩ := List.nodup_cons.mp hkeys
    have hdisjoint : s.filter (fun a => key a = k ∧ key a ∈ keys) = 0 := by
      rw [Multiset.filter_eq_nil]
      rintro a - ⟨rfl, hmem⟩
      exact hk hmem
    rw [List.map_cons, List.sum_cons, ih hrest, Multiset.filter_add_filter, hdisjoint, add_zero]
    simp only [List.mem_cons]

theorem eq_sum_classes {α κ : Type} [DecidableEq κ] (key : α → κ) {s : Multiset α} {keys : List κ}
    (hkeys : keys.Nodup) (hall : ∀ a ∈ s, key a ∈ keys) :
    s = (keys.map fun k => s.filter (fun a => key a = k)).sum :=
  ((sum_classes key s hkeys).trans (Multiset.filter_eq_self.mpr hall)).symm

theorem load_foldl_store (hnames : (groups.map (·.groupName)).Nodup) (m : Entries Bytes Nat)
    (name : Bytes) (pk : Nat) :
    load (groups.foldl (fun m g => store m g.groupName g.pk) m) name = some pk ↔
      (∃ g ∈ groups, g.groupName = name ∧ g.pk = pk) ∨
        name ∉ groups.map (·.groupName) ∧ load m name = some pk := by
  induction groups generalizing m with
  | nil => simp
  | cons g groups ih =>
    rw [List.map_cons, List.nodup_cons] at hnames
    rw [List.foldl_cons, ih hnames.2, load_store]
    by_cases hname : name = g.groupName
    · subst hname
      have hnone : ¬∃ g' ∈ groups, g'.groupName = g.groupName ∧ g'.pk = pk := by
        rintro ⟨g', hmem, heq, -⟩
        exact hnames.1 (heq ▸ List.mem_map_of_mem hmem)
      simp [hnames.1, hnone]
    · simp [hname, Ne.symm hname]

/-- With unique names the dictionary gives each group its key. -/
theorem workerGroupOf_own (hnames : (groups.map (·.groupName)).Nodup) (name : Bytes) :
    OwnGroup groups name (workerGroupOf groups name) := by
  unfold OwnGroup workerGroupOf
  split
  · rfl
  · intro pk
    rw [groupsByName, load_foldl_store hnames]
    simp [load]

/-- A rule of the hash, as it is listed. -/
def Lists (groups : List WorkerGroup) (item : DomainItem) (route : Bytes × Bytes) : Prop :=
  item.pattern = route.1 ∧ OwnGroup groups route.2 item.group

/-- Every rule of the hash that the search leaves is listed once, with its own group. -/
theorem found_lists (hnames : (groups.map (·.groupName)).Nodup) (routes : Entries Bytes Bytes) :
    List.Forall₂ (Lists groups) (found lower groups routes search)
      (routes.filter fun route => matchesSearch lower search route.1) := by
  simp only [found, leftOut_searchText, Bool.not_not, List.forall₂_map_left_iff, List.forall₂_same]
  exact fun route _ => ⟨rfl, workerGroupOf_own hnames route.2⟩

/-- What the group of a rule can be: none, 0 for direct, or the key of a group. -/
def classKeys (groups : List WorkerGroup) : List (Option Nat) :=
  none :: (0 :: (groups.map (·.pk)).dedup).map some

theorem nodup_classKeys (hids : ∀ g ∈ groups, 1 ≤ g.pk) : (classKeys groups).Nodup := by
  have hzero : 0 ∉ (groups.map (·.pk)).dedup := by
    intro hmem
    obtain ⟨g, hg, hpk⟩ := List.mem_map.mp (List.mem_dedup.mp hmem)
    have := hids g hg
    omega
  refine List.nodup_cons.mpr ⟨by simp, ?_⟩
  exact (List.nodup_cons.mpr ⟨hzero, List.nodup_dedup _⟩).map (Option.some_injective Nat)

theorem found_class (hnames : (groups.map (·.groupName)).Nodup) {item : DomainItem}
    (h : item ∈ found lower groups routes search) : item.group ∈ classKeys groups := by
  obtain ⟨route, -, rfl⟩ := List.mem_map.mp h
  cases hg : workerGroupOf groups route.2 with
  | none => exact List.mem_cons_self
  | some pk =>
    refine List.mem_cons_of_mem _ (List.mem_map_of_mem ?_)
    have hown := workerGroupOf_own hnames route.2
    unfold OwnGroup at hown
    split at hown
    · rw [hg] at hown
      cases hown
      exact List.mem_cons_self
    · obtain ⟨g, hmem, -, rfl⟩ := (hown pk).mp hg
      exact List.mem_cons_of_mem _ (List.mem_dedup.mpr (List.mem_map_of_mem hmem))

/-- The argument that asks for one class. -/
def classText (text : Nat → Bytes) : Option Nat → Bytes
  | none => noneText
  | some pk => text pk

theorem groupFilter_text {text : Bytes} {pk : Nat} (h : Py.int text = some (pk : Int)) :
    groupFilter (some text) = .only pk := by
  have hnone : Py.int noneText = none := by decide
  have hempty : Py.int [] = none := by decide
  have hne : text ≠ noneText := by
    rintro rfl
    rw [hnone] at h
    cases h
  have hne' : text ≠ [] := by
    rintro rfl
    rw [hempty] at h
    cases h
  simp [groupFilter, hne, hne', h]

theorem keeps_only (pk : Nat) (g : Option Nat) :
    (GroupFilter.only pk).keeps g = decide (g = some pk) := by
  cases g with
  | none => rfl
  | some n =>
    have hcast : (n : Int) = pk ↔ n = pk := Int.natCast_inj
    simp [GroupFilter.keeps, hcast]

/-- Each class is listed under its argument. -/
theorem getDomainRoutes_class {text : Nat → Bytes} {key : Option Nat} (hkey : key ∈ classKeys groups)
    (htext : ∀ pk ∈ 0 :: groups.map (·.pk), Py.int (text pk) = some (pk : Int)) :
    getDomainRoutes lower groups routes search (some (classText text key)) =
      (found lower groups routes search).filter (fun item => item.group = key) := by
  rw [getDomainRoutes_eq]
  cases key with
  | none => rfl
  | some pk =>
    have hpk : pk ∈ 0 :: groups.map (·.pk) := by simpa [classKeys] using hkey
    rw [classText, groupFilter_text (htext pk hpk)]
    simp only [keeps_only]

/-- The unfiltered listing has every rule of the hash that the search leaves, with its own
group. It is the disjoint union of the listings by `none`, by 0 and by each group, with
texts for the keys as `int` reads them, and each rule is in exactly one of them; and the two
listings agree, whatever order Redis gives the hash in. -/
theorem listings_partition (lower : Bytes → Bytes) (groups : List WorkerGroup)
    (routes : Entries Bytes Bytes) (search : Option Bytes) (text : Nat → Bytes)
    (hids : ∀ g ∈ groups, 1 ≤ g.pk) (hnames : (groups.map (·.groupName)).Nodup)
    (htext : ∀ pk ∈ 0 :: groups.map (·.pk), Py.int (text pk) = some (pk : Int)) :
    let listing := getDomainRoutes lower groups routes search
    let filters := (classKeys groups).map (classText text)
    List.Forall₂ (Lists groups) (listing none)
        (routes.filter fun route => matchesSearch lower search route.1) ∧
      (listing none : Multiset DomainItem) =
        (filters.map fun filter => (listing (some filter) : Multiset DomainItem)).sum ∧
      (∀ item ∈ listing none, (∃! filter, filter ∈ filters ∧ item ∈ listing (some filter)) ∧
        ∃ name, (item.pattern, name) ∈ routes ∧ OwnGroup groups name item.group) ∧
      ∀ routes' group, routes'.Perm routes →
        ((getCIDRRoutes lower groups routes' search group).map CIDRItem.renamed).Perm
          (listing group) := by
  intro listing filters
  have hclass := fun item => @found_class lower groups routes search hnames item
  refine ⟨found_lists hnames routes, ?_, ?_, ?_⟩
  · have hsum : (filters.map fun filter => (listing (some filter) : Multiset DomainItem)) =
        (classKeys groups).map fun key =>
          (found lower groups routes search : Multiset DomainItem).filter
            (fun item => item.group = key) := by
      rw [List.map_map]
      refine List.map_congr_left fun key hkey => ?_
      exact congrArg _ (getDomainRoutes_class hkey htext)
    rw [hsum]
    exact eq_sum_classes DomainItem.group (nodup_classKeys hids) hclass
  · intro item hitem
    refine ⟨⟨classText text item.group, ⟨List.mem_map_of_mem (hclass item hitem), ?_⟩, ?_⟩, ?_⟩
    · have hown : item ∈ (found lower groups routes search).filter
          (fun other => other.group = item.group) := List.mem_filter.mpr ⟨hitem, by simp⟩
      rwa [← getDomainRoutes_class (hclass item hitem) htext] at hown
    · rintro filter ⟨hfilter, hmem⟩
      obtain ⟨key, hkey, rfl⟩ := List.mem_map.mp hfilter
      have hlisted : item ∈ getDomainRoutes lower groups routes search
          (some (classText text key)) := hmem
      rw [getDomainRoutes_class hkey htext] at hlisted
      rw [of_decide_eq_true (List.mem_filter.mp hlisted).2]
    · obtain ⟨route, hroute, rfl⟩ := List.mem_map.mp hitem
      exact ⟨route.2, (List.mem_filter.mp hroute).1, workerGroupOf_own hnames route.2⟩
  · intro routes' group hperm
    rw [getCIDRRoutes_renamed]
    exact getDomainRoutes_perm hperm

/-- With two groups and four rules, one of which the search leaves out. -/
theorem listings_partition_example :
    let groups := [⟨1, [0x61]⟩, ⟨12, [0x62]⟩]
    let routes := [([0x78, 0x2E, 0x77], [0x62]), ([0x79, 0x2E], directRoute), ([0x7A], [0x63]),
      ([0x2E, 0x77], [0x61])]
    let search := some [0x20, 0x2E]
    let listing := getDomainRoutes id groups routes search
    let filters := (classKeys groups).map (classText itoa)
    List.Forall₂ (Lists groups) (listing none)
        (routes.filter fun route => matchesSearch id search route.1) ∧
      (listing none : Multiset DomainItem) =
        (filters.map fun filter => (listing (some filter) : Multiset DomainItem)).sum ∧
      (∀ item ∈ listing none, (∃! filter, filter ∈ filters ∧ item ∈ listing (some filter)) ∧
        ∃ name, (item.pattern, name) ∈ routes ∧ OwnGroup groups name item.group) ∧
      ∀ routes' group, routes'.Perm routes →
        ((getCIDRRoutes id groups routes' search group).map CIDRItem.renamed).Perm
          (listing group) := by
  refine listings_partition id [⟨1, [0x61]⟩, ⟨12, [0x62]⟩] _ (some [0x20, 0x2E]) itoa ?_ ?_ ?_
  · decide
  · decide
  · intro pk hpk
    exact Py.int_itoa (by revert pk; decide)

end SplitProxy.Admin
