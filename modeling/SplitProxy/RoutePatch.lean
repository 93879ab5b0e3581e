import SplitProxy.Admin

/-!
# What a PATCH of a route changes

The two detail endpoints read the key of the URL through their serializers and
write under what the serializer gives back. The domain endpoint never looks for
the route; the CIDR endpoint looks for the key as it came.
-/
namespace SplitProxy.Admin

open GoText SyncMap

/-- The two hashes of routes. -/
inductive RouteKind where
  | domain
  | cidr
  deriving DecidableEq, Repr

def routesOf (s : Store) : RouteKind → Entries Bytes Bytes
  | .domain => s.domains
  | .cidr => s.cidrs

variable {d : Bytes} {s : Store} {kind : RouteKind} {k v : Bytes}

/-- The PATCH on one route. -/
def patchRequest : RouteKind → Bytes → GroupField → Request
  | .domain => .updateDomain
  | .cidr => .updateCIDR

/-- The key the serializer gives back for the key of the URL. -/
def serializedKey : RouteKind → Bytes → Option Bytes
  | .domain => charField 255
  | .cidr => validateCIDR

/-- Redis holds the same routes and the same default. -/
structure SameRedis (s t : Store) : Prop where
  routes : ∀ kind k, load (routesOf t kind) k = load (routesOf s kind) k
  default : t.defaultRoute = s.defaultRoute

/-- One route has this value afterwards; the keys and all other values stay. -/
structure SetsRoute (kind : RouteKind) (k v : Bytes) (s t : Store) : Prop where
  keys : ∀ kind' k', (load (routesOf t kind') k').isSome = (load (routesOf s kind') k').isSome
  value : load (routesOf t kind) k = some v
  others : ∀ kind' k', ¬(kind' = kind ∧ k' = k) →
    load (routesOf t kind') k' = load (routesOf s kind') k'
  default : t.defaultRoute = s.defaultRoute

/-- A PATCH answers 404 for a route that is not there, and sets that route alone
otherwise. -/
def UpdatesThatRoute (kind : RouteKind) (k v : Bytes) (s t : Store) (r : Response) : Prop :=
  match load (routesOf s kind) k with
  | none => r = .notFound ∧ SameRedis s t
  | some _ => SetsRoute kind k v s t

/-- A missing route is refused by the CIDR endpoint alone, when the key passes its
check. A route that is there is written under its own key, or else already has the
value, and so has the one that is written instead. -/
def KeptSpelling (kind : RouteKind) (k v : Bytes) (s : Store) : Prop :=
  match load (routesOf s kind) k with
  | none => kind = .cidr ∧ serializedKey kind k ≠ none
  | some w => serializedKey kind k = some k ∨
      w = v ∧ ∀ k', serializedKey kind k = some k' → load (routesOf s kind) k' = some v

theorem SameRedis.refl (s : Store) : SameRedis s s := ⟨fun _ _ => rfl, rfl⟩

/-- What one `HSET` leaves of both hashes. -/
def setRoute (s : Store) (kind : RouteKind) (k v : Bytes) : Store :=
  match kind with
  | .domain => { s with domains := store s.domains k v }
  | .cidr => { s with cidrs := store s.cidrs k v }

@[simp] theorem setRoute_default : (setRoute s kind k v).defaultRoute = s.defaultRoute := by
  cases kind <;> rfl

theorem load_setRoute (kind' : RouteKind) (k' : Bytes) :
    load (routesOf (setRoute s kind k v) kind') k' =
      if kind' = kind ∧ k' = k then some v else load (routesOf s kind') k' := by
  cases kind <;> cases kind' <;> simp [setRoute, routesOf, load_store]

/-- A write of a key that is there sets that route. -/
theorem setsRoute_setRoute (h : (load (routesOf s kind) k).isSome) :
    SetsRoute kind k v s (setRoute s kind k v) where
  keys := by
    intro kind' k'
    rw [load_setRoute]
    split
    · obtain ⟨rfl, rfl⟩ := ‹kind' = kind ∧ k' = k›
      exact h.symm
    · rfl
  value := by rw [load_setRoute, if_pos ⟨rfl, rfl⟩]
  others := fun kind' k' hne => by rw [load_setRoute, if_neg hne]
  default := setRoute_default

/-- With nothing changed, the route is set if it already has the value. -/
theorem setsRoute_refl_iff : SetsRoute kind k v s s ↔ load (routesOf s kind) k = some v :=
  ⟨SetsRoute.value, fun h => ⟨fun _ _ => rfl, h, fun _ _ _ => rfl, rfl⟩⟩

/-- A write under another key sets the route if both had the value before. -/
theorem setsRoute_other_iff {k' : Bytes} (hk : k' ≠ k) :
    SetsRoute kind k v s (setRoute s kind k' v) ↔
      load (routesOf s kind) k = some v ∧ load (routesOf s kind) k' = some v := by
  constructor
  · intro h
    have hvalue := h.value
    have hother := h.others kind k' (fun hc => hk hc.2)
    rw [load_setRoute, if_neg (fun hc => hk hc.2.symm)] at hvalue
    rw [load_setRoute, if_pos ⟨rfl, rfl⟩] at hother
    exact ⟨hvalue, hother.symm⟩
  · rintro ⟨hvalue, hother⟩
    have hsame : ∀ kind₁ k₁, load (routesOf (setRoute s kind k' v) kind₁) k₁ =
        load (routesOf s kind₁) k₁ := by
      intro kind₁ k₁
      rw [load_setRoute]
      split
      · obtain ⟨rfl, rfl⟩ := ‹kind₁ = kind ∧ k₁ = k'›
        exact hother.symm
      · rfl
    exact ⟨fun kind₁ k₁ => by rw [hsame], by rw [hsame, hvalue], fun kind₁ k₁ _ => hsame kind₁ k₁,
      setRoute_default⟩

/-! ## The two endpoints -/

variable {f : GroupField} {g : Option WorkerGroup}

/-- What a PATCH answers and leaves behind when the group is valid. -/
theorem patch_cases (hg : workerGroupField s f = .group g) :
    let r := handle d s (patchRequest kind k f)
    (serializedKey kind k = none ∧ r.1 = .badRequest ∧ apply s r.2 = s) ∨
    (kind = .cidr ∧ (∃ k', serializedKey kind k = some k') ∧ load (routesOf s kind) k = none ∧
      r.1 = .notFound ∧ apply s r.2 = s) ∨
    (∃ k', serializedKey kind k = some k' ∧
      (kind = .cidr → (load (routesOf s kind) k).isSome) ∧
      r.1 = .routes 200 [k'] (routePk g) ∧ apply s r.2 = setRoute s kind k' (routeName g)) := by
  cases kind with
  | domain =>
    cases hk : charField 255 k with
    | none => exact Or.inl ⟨hk, by simp [handle, patchRequest, updateDomain, hk, apply]⟩
    | some k' =>
      refine Or.inr (Or.inr ⟨k', hk, nofun, ?_, ?_⟩)
      · simp [handle, patchRequest, updateDomain, hk, hg]
      · simp [handle, patchRequest, updateDomain, hk, hg, apply, hsetAll, setRoute]
  | cidr =>
    cases hk : validateCIDR k with
    | none => exact Or.inl ⟨hk, by simp [handle, patchRequest, updateCIDR, hk, apply]⟩
    | some k' =>
      cases hload : load s.cidrs k with
      | none =>
        refine Or.inr (Or.inl ⟨rfl, ⟨k', hk⟩, hload, ?_⟩)
        simp [handle, patchRequest, updateCIDR, hk, hg, hload, apply]
      | some w =>
        refine Or.inr (Or.inr ⟨k', hk, fun _ => ?_, ?_, ?_⟩)
        · rw [routesOf, hload]
          rfl
        · simp [handle, patchRequest, updateCIDR, hk, hg, hload]
        · simp [handle, patchRequest, updateCIDR, hk, hg, hload, apply, hsetAll, setRoute]

theorem updates_iff_absent (hload : load (routesOf s kind) k = none)
    (hg : workerGroupField s f = .group g) :
    UpdatesThatRoute kind k (routeName g) s (apply s (handle d s (patchRequest kind k f)).2)
        (handle d s (patchRequest kind k f)).1 ↔
      KeptSpelling kind k (routeName g) s := by
  rw [UpdatesThatRoute, KeptSpelling]
  simp only [hload]
  obtain ⟨hk, hr, -⟩ | ⟨hkind, ⟨k', hk⟩, -, hr, hs⟩ | ⟨k', hk, hcidr, hr, -⟩ :=
    @patch_cases d s kind k f g hg
  · simp [hr, hk]
  · subst hkind
    simp [hr, hs, hk, SameRedis.refl]
  · rw [hr]
    constructor
    · rintro ⟨hc, -⟩
      cases hc
    · rintro ⟨hc, -⟩
      have hsome := hcidr hc
      rw [hload] at hsome
      cases hsome

theorem updates_iff_present {w : Bytes} (hload : load (routesOf s kind) k = some w)
    (hg : workerGroupField s f = .group g) :
    UpdatesThatRoute kind k (routeName g) s (apply s (handle d s (patchRequest kind k f)).2)
        (handle d s (patchRequest kind k f)).1 ↔
      KeptSpelling kind k (routeName g) s := by
  rw [UpdatesThatRoute, KeptSpelling]
  simp only [hload]
  obtain ⟨hk, -, hs⟩ | ⟨-, -, hnone, -⟩ | ⟨k', hk, -, -, hs⟩ :=
    @patch_cases d s kind k f g hg
  · rw [hs, setsRoute_refl_iff]
    simp [hload, hk]
  · rw [hload] at hnone
    cases hnone
  · rw [hs]
    by_cases he : k' = k
    · subst he
      have hsome : (load (routesOf s kind) k').isSome := by
        rw [hload]
        rfl
      simp [hk, setsRoute_setRoute hsome]
    · rw [setsRoute_other_iff he]
      simp [hload, hk, he]

/-- A PATCH with a valid group updates that route and nothing else exactly when the
serializer keeps the key as it is stored, or nothing shows of it: a domain that is
not there is created, and a CIDR with host bits is written under its network. -/
theorem patch_iff_keptSpelling (d : Bytes) (s : Store) (kind : RouteKind) (k : Bytes)
    (f : GroupField) (g : Option WorkerGroup) (hg : workerGroupField s f = .group g) :
    UpdatesThatRoute kind k (routeName g) s (apply s (handle d s (patchRequest kind k f)).2)
        (handle d s (patchRequest kind k f)).1 ↔
      KeptSpelling kind k (routeName g) s := by
  cases hload : load (routesOf s kind) k with
  | none => exact updates_iff_absent hload hg
  | some w => exact updates_iff_present hload hg

/-- `10.0.0.0/8`. -/
def networkText : Bytes := [0x31, 0x30, 0x2E, 0x30, 0x2E, 0x30, 0x2E, 0x30, 0x2F, 0x38]

/-- `10.0.0.1/8`, which the create endpoint stores as it is. -/
def hostBitsText : Bytes := [0x31, 0x30, 0x2E, 0x30, 0x2E, 0x30, 0x2E, 0x31, 0x2F, 0x38]

/-- Redis with one CIDR route, to the group `g`. -/
def withCIDR (cidr : Bytes) : Store :=
  { installed directRoute with cidrs := [(cidr, [0x67])] }

theorem patch_network :
    UpdatesThatRoute .cidr networkText directRoute (withCIDR networkText)
      (apply (withCIDR networkText)
        (handle directRoute (withCIDR networkText) (patchRequest .cidr networkText .null)).2)
      (handle directRoute (withCIDR networkText) (patchRequest .cidr networkText .null)).1 :=
  (patch_iff_keptSpelling directRoute (withCIDR networkText) .cidr networkText .null none rfl).mpr
    (Or.inl (by decide +kernel))

/-- A PATCH of `a` with no routes at all answers 200 and leaves a route for `a`; a
PATCH of `10.0.0.1/8` leaves its route and adds one for `10.0.0.0/8`. -/
theorem patch_elsewhere :
    ¬UpdatesThatRoute .domain [0x61] directRoute (installed directRoute)
      (apply (installed directRoute)
        (handle directRoute (installed directRoute) (patchRequest .domain [0x61] .null)).2)
      (handle directRoute (installed directRoute) (patchRequest .domain [0x61] .null)).1 ∧
    ¬UpdatesThatRoute .cidr hostBitsText directRoute (withCIDR hostBitsText)
      (apply (withCIDR hostBitsText)
        (handle directRoute (withCIDR hostBitsText) (patchRequest .cidr hostBitsText .null)).2)
      (handle directRoute (withCIDR hostBitsText) (patchRequest .cidr hostBitsText .null)).1 := by
  refine ⟨?_, ?_⟩
  · rintro ⟨hr, -⟩
    exact absurd hr (by decide +kernel)
  · intro h
    have hkeys := SetsRoute.keys h .cidr networkText
    exact absurd hkeys (by decide +kernel)

end SplitProxy.Admin
