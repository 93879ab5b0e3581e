import SplitProxy.PyInt
import SplitProxy.Admin

/-!
# The routing views on JSON bodies

Each view hands what its serializer leaves of a body to a service as keyword
arguments. A Python exception that nobody handles is an `Exc`; a refused body is an
answer. The requests of the admin API are the bodies whose fields have their own types.
-/
namespace SplitProxy.Admin

open GoText NetIP SyncMap

/-! ## Bodies -/

/-- A float, by what the code reads of it: its `str`, its `int`, which an infinite one
does not have, and whether it equals 0. -/
structure PyFloat where
  text : Bytes
  int : Option Int
  isZero : Bool
  deriving DecidableEq, Repr

/-- A JSON value. Texts with lone surrogates, which no field admits, are left out. -/
inductive Json where
  | null
  | bool (b : Bool)
  | int (n : Int)
  | float (x : PyFloat)
  | str (s : Bytes)
  | arr (items : List Json)
  | obj (entries : List (Bytes × Json))

abbrev Body := Entries Bytes Json

/-- `"patterns"`. -/
def patternsKey : Bytes := [0x70, 0x61, 0x74, 0x74, 0x65, 0x72, 0x6E, 0x73]

/-- `"pattern"`. -/
def patternKey : Bytes := [0x70, 0x61, 0x74, 0x74, 0x65, 0x72, 0x6E]

/-- `"cidrs"`. -/
def cidrsKey : Bytes := [0x63, 0x69, 0x64, 0x72, 0x73]

/-- `"cidr"`. -/
def cidrKey : Bytes := [0x63, 0x69, 0x64, 0x72]

/-- `"worker_group"`. -/
def workerGroupKey : Bytes :=
  [0x77, 0x6F, 0x72, 0x6B, 0x65, 0x72, 0x5F, 0x67, 0x72, 0x6F, 0x75, 0x70]

/-! ## Serializers -/

/-- The exceptions no view handles. -/
inductive Exc where
  | typeError
  | attributeError
  | doesNotExist
  | overflowError
  deriving DecidableEq, Repr

/-- `str` of an integer. -/
def intText (n : Int) : Bytes := if n < 0 then 0x2D :: itoa n.natAbs else itoa n.natAbs

/-- `CharField` on a JSON value: numbers are taken as their texts. -/
def charJson (maxLength : Nat) : Json → Option Bytes
  | .str s => charField maxLength s
  | .int n => charField maxLength (intText n)
  | .float x => charField maxLength x.text
  | _ => none

/-- `ListField(child=.., allow_empty=False)`. -/
def listField (child : Json → Option Bytes) : Json → Option (List Bytes)
  | .arr items => if items.isEmpty then none else items.mapM child
  | _ => none

/-- `data == 0`, which `False` and `0.0` are as well. -/
def equalsZero : Json → Bool
  | .bool b => !b
  | .int n => n = 0
  | .float x => x.isZero
  | _ => false

/-- `WorkerGroup.objects.get(pk=..)`. -/
def getByPk (s : Store) (n : Int) : Option WorkerGroup :=
  if n < 0 then none else getGroup s n.toNat

def related (s : Store) (n : Int) : Validated :=
  match getByPk s n with
  | none => .invalid
  | some g => .group (some g)

/-- `PrimaryKeyRelatedField(allow_null=True)`: what is no number or no key is refused,
but an infinite float is not caught. -/
def relatedField (s : Store) : Json → Except Exc Validated
  | .null => .ok (.group none)
  | .bool _ => .ok .invalid
  | .int n => .ok (related s n)
  | .float x =>
    match x.int with
    | none => .error .overflowError
    | some n => .ok (related s n)
  | .str t =>
    if t = [] then .ok (.group none)
    else
      match Py.int t with
      | none => .ok .invalid
      | some n => .ok (related s n)
  | .arr _ => .ok .invalid
  | .obj _ => .ok .invalid

/-- The `worker_group` of a body, after `to_internal_value` has turned 0 into `None`. -/
def workerGroupOfBody (s : Store) (body : Body) : Except Exc Validated :=
  match load body workerGroupKey with
  | none => .ok .absent
  | some value => if equalsZero value then .ok (.group none) else relatedField s value

/-- `validated_data`: the keys, and the group if the body has one. -/
structure RouteData (κ : Type) where
  key : κ
  workerGroup : Option (Option WorkerGroup)

/-- A route serializer whose other field gives `key`. -/
def routeSerializer {κ : Type} (s : Store) (body : Body) (key : Option κ) :
    Except Exc (Option (RouteData κ)) :=
  match workerGroupOfBody s body, key with
  | .error e, _ => .error e
  | .ok .invalid, _ => .ok none
  | .ok _, none => .ok none
  | .ok .absent, some key => .ok (some ⟨key, none⟩)
  | .ok (.group g), some key => .ok (some ⟨key, some g⟩)

def domainRouteSerializer (s : Store) (body : Body) : Except Exc (Option (RouteData Bytes)) :=
  routeSerializer s body ((load body patternKey).bind (charJson 255))

def domainsRouteSerializer (s : Store) (body : Body) :
    Except Exc (Option (RouteData (List Bytes))) :=
  routeSerializer s body ((load body patternsKey).bind (listField (charJson 255)))

def cidrRouteSerializer (s : Store) (body : Body) : Except Exc (Option (RouteData Bytes)) :=
  routeSerializer s body (((load body cidrKey).bind (charJson 64)).bind
    (fun value => (PyIP.ipNetwork value).map PyIP.Network.string))

def cidrsRouteSerializer (s : Store) (body : Body) :
    Except Exc (Option (RouteData (List Bytes))) :=
  routeSerializer s body (((load body cidrsKey).bind (listField (charJson 255))).bind
    (fun value => if value.all (fun cidr => (PyIP.ipNetwork cidr).isSome) then some value else none))

/-- `str.rstrip`. -/
def rstrip (s : Bytes) : Bytes :=
  (dropWords (pySpaces.map List.reverse) s.length s.reverse).reverse

/-- `IntegerField`'s `re_decimal`: a point with nothing but zeros and then white space
behind it goes. -/
def dropDecimal (s : Bytes) : Bytes :=
  match (rstrip s).reverse.dropWhile (· = 0x30) with
  | [] => s
  | c :: rest => if c = 0x2E then rest.reverse else s

/-- `IntegerField`: of the other values, the texts are no numbers. -/
def integerField : Json → Option Int
  | .int n => some n
  | .float x => Py.int (dropDecimal x.text)
  | .str t => if 1000 < (decode t).length then none else Py.int (dropDecimal t)
  | _ => none

/-- `DefaultRouteSerializer`, with its `min_value`. -/
def defaultRouteSerializer (body : Body) : Option Int :=
  ((load body workerGroupKey).bind integerField).bind (fun n => if 0 ≤ n then some n else none)

/-! ## Services -/

/-- `create_domain_route`; a group that is not passed is a missing argument. -/
def createDomainRoute (patterns : List Bytes) :
    Option (Option WorkerGroup) → Except Exc (Response × Change)
  | none => .error .typeError
  | some g => .ok (.routes 201 patterns (routePk g), .setDomains patterns g)

/-- `update_domain_route`. -/
def updateDomainRoute (pattern : Bytes) :
    Option (Option WorkerGroup) → Except Exc (Response × Change)
  | none => .error .typeError
  | some g => .ok (.routes 200 [pattern] (routePk g), .setDomains [pattern] g)

/-- `create_cidr_route`. -/
def createCIDRRoute (cidrs : List Bytes) :
    Option (Option WorkerGroup) → Except Exc (Response × Change)
  | none => .error .typeError
  | some g => .ok (.routes 201 cidrs (routePk g), .setCIDRs cidrs g)

/-- `update_cidr_route`. -/
def updateCIDRRoute (cidr : Bytes) :
    Option (Option WorkerGroup) → Except Exc (Response × Change)
  | none => .error .typeError
  | some g => .ok (.routes 200 [cidr] (routePk g), .setCIDRs [cidr] g)

/-- `update_default_route`. -/
def updateDefaultRoute (d : Bytes) (s : Store) (workerGroup : Int) :
    Except Exc (Response × Change) :=
  if workerGroup = 0 then .ok (.default 0, .setDefault d)
  else
    match getByPk s workerGroup with
    | none => .error .doesNotExist
    | some g => .ok (.default g.pk, .setDefault g.groupName)

/-! ## Views -/

/-- A request to a routing endpoint that changes something. -/
inductive Call where
  | createDomains (body : Body)
  | updateDomain (pattern : Bytes) (body : Body)
  | deleteDomain (pattern : Bytes)
  | createCIDRs (body : Body)
  | updateCIDR (cidr : Bytes) (body : Body)
  | deleteCIDR (cidr : Bytes)
  | clearCIDRs
  | updateDefault (body : Body)

/-- `is_valid(raise_exception=True)` and then the rest of the view. -/
def validated {κ : Type} (serializer : Except Exc (Option κ))
    (rest : κ → Except Exc (Response × Change)) : Except Exc (Response × Change) :=
  match serializer with
  | .error e => .error e
  | .ok none => .ok (.badRequest, .none)
  | .ok (some data) => rest data

/-- The body a detail view validates: the key is that of the URL. -/
def domainBody (pattern : Bytes) (body : Body) : Body := store body patternKey (.str pattern)

def cidrBody (cidr : Bytes) (body : Body) : Body := store body cidrKey (.str cidr)

/-- The views; `services` has no `delete_all_cidr_routes`. -/
def view (d : Bytes) (s : Store) : Call → Except Exc (Response × Change)
  | .createDomains body =>
    validated (domainsRouteSerializer s body) fun data => createDomainRoute data.key data.workerGroup
  | .updateDomain pattern body =>
    validated (domainRouteSerializer s (domainBody pattern body)) fun data =>
      updateDomainRoute data.key data.workerGroup
  | .deleteDomain pattern => .ok (deleteDomain s pattern)
  | .createCIDRs body =>
    validated (cidrsRouteSerializer s body) fun data => createCIDRRoute data.key data.workerGroup
  | .updateCIDR cidr body =>
    validated (cidrRouteSerializer s (cidrBody cidr body)) fun data =>
      match load s.cidrs cidr with
      | none => .ok (.notFound, .none)
      | some _ => updateCIDRRoute data.key data.workerGroup
  | .deleteCIDR cidr => .ok (deleteCIDR s cidr)
  | .clearCIDRs => .error .attributeError
  | .updateDefault body =>
    validated (.ok (defaultRouteSerializer body)) (updateDefaultRoute d s)

variable {d : Bytes} {s : Store} {body : Body} {κ : Type}

/-! ## Requests as bodies -/

/-- The body with this group and nothing else. -/
def groupBody : GroupField → Body
  | .absent => []
  | .null => [(workerGroupKey, .null)]
  | .pk n => [(workerGroupKey, .int n)]

/-- The call a request to a routing endpoint makes. -/
def callOf : Request → Option Call
  | .createDomains patterns f =>
    some (.createDomains ((patternsKey, .arr (patterns.map .str)) :: groupBody f))
  | .updateDomain pattern f => some (.updateDomain pattern (groupBody f))
  | .deleteDomain pattern => some (.deleteDomain pattern)
  | .createCIDRs cidrs f => some (.createCIDRs ((cidrsKey, .arr (cidrs.map .str)) :: groupBody f))
  | .updateCIDR cidr f => some (.updateCIDR cidr (groupBody f))
  | .deleteCIDR cidr => some (.deleteCIDR cidr)
  | .clearCIDRs => some .clearCIDRs
  | .updateDefault none => some (.updateDefault [])
  | .updateDefault (some n) => some (.updateDefault [(workerGroupKey, .int n)])
  | _ => none

/-- An exception is answered 500 and changes nothing. -/
def respond : Except Exc (Response × Change) → Response × Change
  | .ok r => r
  | .error _ => (.serverError, .none)

theorem load_domainBody (pattern : Bytes) (body : Body) :
    load (domainBody pattern body) workerGroupKey = load body workerGroupKey :=
  load_store_other body _ (by decide)

theorem load_cidrBody (cidr : Bytes) (body : Body) :
    load (cidrBody cidr body) workerGroupKey = load body workerGroupKey :=
  load_store_other body _ (by decide)

theorem getByPk_natCast (n : Nat) : getByPk s (n : Int) = getGroup s n := by
  rw [getByPk, if_neg (by omega), Int.toNat_natCast]

theorem workerGroupOfBody_typed {f : GroupField}
    (hload : load body workerGroupKey = load (groupBody f) workerGroupKey) :
    workerGroupOfBody s body = .ok (workerGroupField s f) := by
  rw [workerGroupOfBody, hload]
  cases f with
  | absent => rfl
  | null => rfl
  | pk n =>
    by_cases hzero : n = 0
    · subst hzero
      rfl
    · have hne : equalsZero (.int (n : Int)) = false := decide_eq_false (by omega)
      have hrelated : workerGroupField s (.pk n) = related s n := by
        cases hg : getGroup s n with
        | none => simp [workerGroupField, related, getByPk_natCast, hg, hzero]
        | some g => simp [workerGroupField, related, getByPk_natCast, hg, hzero]
      rw [hrelated]
      change (if equalsZero (.int (n : Int)) = true then _ else relatedField s (.int n)) = _
      rw [if_neg (by simp [hne]), relatedField]

theorem listField_typed (keys : List Bytes) :
    listField (charJson 255) (.arr (keys.map .str)) =
      if keys = [] then none else keys.mapM (charField 255) := by
  rw [listField, List.isEmpty_map, List.mapM_map]
  cases keys <;> rfl

/-- No field of a non-empty list is lost. -/
theorem mapM_ne_nil {f : Bytes → Option Bytes} {keys : List Bytes} (h : keys ≠ []) :
    keys.mapM f ≠ some [] := fun hm => h (List.forall₂_nil_right_iff.mp (mapM_forall₂ hm))

theorem defaultRouteSerializer_typed (n : Nat) :
    defaultRouteSerializer [(workerGroupKey, .int n)] = some (n : Int) := by
  have hload : load [(workerGroupKey, Json.int n)] workerGroupKey = some (.int n) := rfl
  rw [defaultRouteSerializer, hload, Option.bind_some, integerField, Option.bind_some,
    if_pos (Int.natCast_nonneg n)]

/-- A list of texts is refused, or it is what the texts become, and that is not empty. -/
theorem listField_cases (keys : List Bytes) :
    listField (charJson 255) (.arr (keys.map .str)) = none ∧
        (keys.mapM (charField 255) = none ∨ keys.mapM (charField 255) = some []) ∨
      ∃ key rest, listField (charJson 255) (.arr (keys.map .str)) = some (key :: rest) ∧
        keys.mapM (charField 255) = some (key :: rest) := by
  rw [listField_typed]
  by_cases hempty : keys = []
  · subst hempty
    exact Or.inl ⟨if_pos rfl, Or.inr rfl⟩
  · rw [if_neg hempty]
    have hne := @mapM_ne_nil (charField 255) keys hempty
    cases hkeys : keys.mapM (charField 255) with
    | none => exact Or.inl ⟨rfl, Or.inl rfl⟩
    | some keys' =>
      cases keys' with
      | nil => exact absurd hkeys hne
      | cons key rest => exact Or.inr ⟨key, rest, rfl, rfl⟩

theorem respond_createDomains (d : Bytes) (s : Store) (patterns : List Bytes) (f : GroupField) :
    respond (view d s (.createDomains ((patternsKey, .arr (patterns.map .str)) :: groupBody f))) =
      createDomains s patterns f := by
  have hgroup : workerGroupOfBody s ((patternsKey, .arr (patterns.map .str)) :: groupBody f) =
      .ok (workerGroupField s f) := workerGroupOfBody_typed rfl
  have hload : (load ((patternsKey, Json.arr (patterns.map .str)) :: groupBody f) patternsKey).bind
      (listField (charJson 255)) = listField (charJson 255) (.arr (patterns.map .str)) := rfl
  simp only [view, domainsRouteSerializer, routeSerializer, hgroup, hload, createDomains]
  obtain ⟨hl, hm | hm⟩ | ⟨key, rest, hl, hm⟩ := listField_cases patterns
  · rw [hl, hm]
    cases workerGroupField s f <;> rfl
  · rw [hl, hm]
    cases workerGroupField s f <;> rfl
  · rw [hl, hm]
    cases workerGroupField s f <;> rfl

theorem respond_updateDomain (d : Bytes) (s : Store) (pattern : Bytes) (f : GroupField) :
    respond (view d s (.updateDomain pattern (groupBody f))) = updateDomain s pattern f := by
  have hgroup : workerGroupOfBody s (domainBody pattern (groupBody f)) =
      .ok (workerGroupField s f) := workerGroupOfBody_typed (load_domainBody pattern _)
  have hkey : (load (domainBody pattern (groupBody f)) patternKey).bind (charJson 255) =
      charField 255 pattern := by
    rw [domainBody, load_store_self]
    rfl
  simp only [view, domainRouteSerializer, routeSerializer, hgroup, hkey, updateDomain]
  cases charField 255 pattern <;> cases workerGroupField s f <;> rfl

theorem respond_createCIDRs (d : Bytes) (s : Store) (cidrs : List Bytes) (f : GroupField) :
    respond (view d s (.createCIDRs ((cidrsKey, .arr (cidrs.map .str)) :: groupBody f))) =
      createCIDRs s cidrs f := by
  have hgroup : workerGroupOfBody s ((cidrsKey, .arr (cidrs.map .str)) :: groupBody f) =
      .ok (workerGroupField s f) := workerGroupOfBody_typed rfl
  have hload : (load ((cidrsKey, Json.arr (cidrs.map .str)) :: groupBody f) cidrsKey).bind
      (listField (charJson 255)) = listField (charJson 255) (.arr (cidrs.map .str)) := rfl
  simp only [view, cidrsRouteSerializer, routeSerializer, hgroup, hload, createCIDRs, validateCIDRs]
  obtain ⟨hl, hm | hm⟩ | ⟨key, rest, hl, hm⟩ := listField_cases cidrs
  · rw [hl, hm]
    cases workerGroupField s f <;> rfl
  · rw [hl, hm]
    cases workerGroupField s f <;> rfl
  · rw [hl, hm]
    simp only [Option.bind_some]
    by_cases hall : (key :: rest).all (fun cidr => (PyIP.ipNetwork cidr).isSome) = true
    · rw [if_pos hall]
      cases workerGroupField s f <;> rfl
    · rw [if_neg hall]
      cases workerGroupField s f <;> rfl

theorem respond_updateCIDR (d : Bytes) (s : Store) (cidr : Bytes) (f : GroupField) :
    respond (view d s (.updateCIDR cidr (groupBody f))) = updateCIDR s cidr f := by
  have hgroup : workerGroupOfBody s (cidrBody cidr (groupBody f)) =
      .ok (workerGroupField s f) := workerGroupOfBody_typed (load_cidrBody cidr _)
  have hkey : (load (cidrBody cidr (groupBody f)) cidrKey).bind (charJson 64) =
      charField 64 cidr := by
    rw [cidrBody, load_store_self]
    rfl
  have hvalid : (charField 64 cidr).bind
      (fun value => (PyIP.ipNetwork value).map PyIP.Network.string) = validateCIDR cidr := rfl
  simp only [view, cidrRouteSerializer, routeSerializer, hgroup, hkey, hvalid, updateCIDR]
  cases validateCIDR cidr <;> cases workerGroupField s f <;> cases load s.cidrs cidr <;> rfl

theorem respond_updateDefault (d : Bytes) (s : Store) (n : Nat) :
    respond (view d s (.updateDefault [(workerGroupKey, .int n)])) =
      handle d s (.updateDefault (some n)) := by
  simp only [view, defaultRouteSerializer_typed, validated, updateDefaultRoute, handle,
    updateDefault, getByPk_natCast, Int.natCast_eq_zero]
  by_cases hzero : n = 0
  · simp only [hzero, ↓reduceIte, respond]
  · simp only [hzero, ↓reduceIte]
    cases getGroup s n <;> rfl

/-- The views answer the requests of the admin API as it does. -/
theorem respond_view {r : Request} {call : Call} (h : callOf r = some call) :
    respond (view d s call) = handle d s r := by
  cases r with
  | createDomains patterns f =>
    cases h
    exact respond_createDomains d s patterns f
  | updateDomain pattern f =>
    cases h
    exact respond_updateDomain d s pattern f
  | createCIDRs cidrs f =>
    cases h
    exact respond_createCIDRs d s cidrs f
  | updateCIDR cidr f =>
    cases h
    exact respond_updateCIDR d s cidr f
  | deleteDomain pattern | deleteCIDR cidr | clearCIDRs =>
    cases h
    rfl
  | updateDefault group =>
    cases group with
    | none =>
      cases h
      rfl
    | some n =>
      cases h
      exact respond_updateDefault d s n
  | createGroup name => cases h
  | updateGroup pk name => cases h
  | deleteGroup pk => cases h

/-! ## Which accepted bodies are answered -/

/-- The serializer takes the body as valid. -/
def isValid : Except Exc (Option κ) → Bool
  | .ok (some _) => true
  | _ => false

/-- The serializer of the endpoint, if it has one, takes the body as valid. -/
def accepts (s : Store) : Call → Bool
  | .createDomains body => isValid (domainsRouteSerializer s body)
  | .updateDomain pattern body => isValid (domainRouteSerializer s (domainBody pattern body))
  | .createCIDRs body => isValid (cidrsRouteSerializer s body)
  | .updateCIDR cidr body => isValid (cidrRouteSerializer s (cidrBody cidr body))
  | .updateDefault body => (defaultRouteSerializer body).isSome
  | _ => true

/-- A success, or a 404. -/
def Response.isAnswer : Response → Bool
  | .routes status _ _ => 200 ≤ status ∧ status < 300
  | .default _ => true
  | .noContent => true
  | .notFound => true
  | _ => false

/-- The view returns a response, a success or a 404, with no exception. -/
def Answered (d : Bytes) (s : Store) (call : Call) : Prop :=
  ∃ r c, view d s call = .ok (r, c) ∧ r.isAnswer

/-- The body names a group wherever the service needs one, the group of the default
route exists, and no service is missing. -/
def Complete (s : Store) : Call → Prop
  | .createDomains body => (load body workerGroupKey).isSome
  | .updateDomain _ body => (load body workerGroupKey).isSome
  | .createCIDRs body => (load body workerGroupKey).isSome
  | .updateCIDR cidr body => (load body workerGroupKey).isSome ∨ load s.cidrs cidr = none
  | .clearCIDRs => False
  | .updateDefault body =>
    ∀ n, defaultRouteSerializer body = some n → n = 0 ∨ ∃ g ∈ s.groups, (g.pk : Int) = n
  | _ => True

theorem isValid_iff {serializer : Except Exc (Option κ)} :
    isValid serializer = true ↔ ∃ data, serializer = .ok (some data) := by
  cases serializer with
  | error e => simp [isValid]
  | ok data => cases data <;> simp [isValid]

theorem related_ne_absent (n : Int) : related s n ≠ .absent := by
  unfold related
  split <;> simp

theorem relatedField_ne_absent (value : Json) : relatedField s value ≠ .ok .absent := by
  have hrelated : ∀ n, (Except.ok (related s n) : Except Exc Validated) ≠ .ok .absent :=
    fun n h => related_ne_absent n (Except.ok.inj h)
  cases value with
  | null => simp [relatedField]
  | bool b => simp [relatedField]
  | int n => exact hrelated n
  | float x =>
    rw [relatedField]
    split
    · simp
    · exact hrelated _
  | str t =>
    rw [relatedField]
    split
    · simp
    · split
      · simp
      · exact hrelated _
  | arr items => simp [relatedField]
  | obj entries => simp [relatedField]

theorem workerGroupOfBody_absent :
    workerGroupOfBody s body = .ok .absent ↔ load body workerGroupKey = none := by
  unfold workerGroupOfBody
  cases load body workerGroupKey with
  | none => simp
  | some value =>
    simp only [reduceCtorEq, iff_false]
    split
    · simp
    · exact relatedField_ne_absent value

/-- The group is passed on exactly if the body has one. -/
theorem routeSerializer_group {key : Option κ} {data : RouteData κ}
    (h : routeSerializer s body key = .ok (some data)) :
    data.workerGroup.isSome = (load body workerGroupKey).isSome := by
  have habsent := @workerGroupOfBody_absent s body
  unfold routeSerializer at h
  split at h
  · cases h
  · cases h
  · cases h
  · cases h
    rw [habsent.mp ‹_›]
    rfl
  · rename_i hgroup
    cases h
    cases hload : load body workerGroupKey with
    | none =>
      rw [habsent.mpr hload] at hgroup
      cases hgroup
    | some value => rfl

/-- A service that needs the group answers exactly if it is passed one. -/
theorem answers_iff_isSome (service : Option (Option WorkerGroup) → Except Exc (Response × Change))
    (hnone : service none = .error .typeError)
    (hsome : ∀ g, ∃ r c, service (some g) = .ok (r, c) ∧ r.isAnswer) (g : Option (Option WorkerGroup)) :
    (∃ r c, service g = .ok (r, c) ∧ r.isAnswer) ↔ g.isSome := by
  cases g with
  | none => simp [hnone]
  | some g => simpa using hsome g

theorem getByPk_some {n : Int} {g : WorkerGroup} (h : getByPk s n = some g) :
    g ∈ s.groups ∧ (g.pk : Int) = n := by
  unfold getByPk getGroup at h
  split at h
  · cases h
  · have hpk := List.find?_some h
    simp only [decide_eq_true_eq] at hpk
    exact ⟨List.mem_of_find?_eq_some h, by omega⟩

theorem getByPk_none {n : Int} (h : getByPk s n = none) {g : WorkerGroup} (hg : g ∈ s.groups) :
    (g.pk : Int) ≠ n := by
  unfold getByPk getGroup at h
  split at h
  · omega
  · have hne := List.find?_eq_none.mp h g hg
    simp only [decide_eq_true_eq] at hne
    omega

/-- An accepted request is answered exactly if it is complete: a rule needs a
`worker_group` in its body, unless the CIDR to update is not there, the default route a
group that exists, and clearing the CIDR rules never works. -/
theorem answered_iff_complete (d : Bytes) (s : Store) (call : Call)
    (haccepts : accepts s call = true) : Answered d s call ↔ Complete s call := by
  cases call with
  | createDomains body =>
    obtain ⟨data, hdata⟩ := isValid_iff.mp haccepts
    have hiff := answers_iff_isSome (createDomainRoute data.key) rfl
      (fun g => ⟨_, _, rfl, rfl⟩) data.workerGroup
    rw [routeSerializer_group hdata] at hiff
    simpa only [Answered, view, hdata, validated, Complete] using hiff
  | updateDomain pattern body =>
    obtain ⟨data, hdata⟩ := isValid_iff.mp haccepts
    have hiff := answers_iff_isSome (updateDomainRoute data.key) rfl
      (fun g => ⟨_, _, rfl, rfl⟩) data.workerGroup
    rw [routeSerializer_group hdata, load_domainBody] at hiff
    simpa only [Answered, view, hdata, validated, Complete] using hiff
  | deleteDomain pattern =>
    simp only [Answered, view, deleteDomain, Complete, iff_true]
    split <;> exact ⟨_, _, rfl, rfl⟩
  | createCIDRs body =>
    obtain ⟨data, hdata⟩ := isValid_iff.mp haccepts
    have hiff := answers_iff_isSome (createCIDRRoute data.key) rfl
      (fun g => ⟨_, _, rfl, rfl⟩) data.workerGroup
    rw [routeSerializer_group hdata] at hiff
    simpa only [Answered, view, hdata, validated, Complete] using hiff
  | updateCIDR cidr body =>
    obtain ⟨data, hdata⟩ := isValid_iff.mp haccepts
    have hiff := answers_iff_isSome (updateCIDRRoute data.key) rfl
      (fun g => ⟨_, _, rfl, rfl⟩) data.workerGroup
    rw [routeSerializer_group hdata, load_cidrBody] at hiff
    simp only [Answered, view, hdata, validated, Complete]
    cases load s.cidrs cidr with
    | none => simp [Response.isAnswer]
    | some name => simpa using hiff
  | deleteCIDR cidr =>
    simp only [Answered, view, deleteCIDR, Complete, iff_true]
    split <;> exact ⟨_, _, rfl, rfl⟩
  | clearCIDRs => simp [Answered, view, Complete]
  | updateDefault body =>
    obtain ⟨n, hn⟩ := Option.isSome_iff_exists.mp haccepts
    simp only [Answered, view, hn, validated, Complete, Option.some.injEq, forall_eq',
      updateDefaultRoute]
    by_cases hzero : n = 0
    · simp [hzero, Response.isAnswer]
    · cases hpk : getByPk s n with
      | none =>
        simp only [hzero, ↓reduceIte, reduceCtorEq, false_and, exists_false, false_or, false_iff]
        rintro ⟨g, hg, heq⟩
        exact getByPk_none hpk hg heq
      | some g =>
        simp only [hzero, ↓reduceIte, false_or]
        exact iff_of_true ⟨_, _, rfl, rfl⟩ ⟨g, getByPk_some hpk⟩

/-- With one group, the default route to it, named by the text of its key. -/
theorem answered_by_text :
    accepts ⟨[⟨1, [0x67]⟩], 2, [], [], none⟩ (.updateDefault [(workerGroupKey, .str [0x31])]) = true ∧
      (Answered directRoute ⟨[⟨1, [0x67]⟩], 2, [], [], none⟩
          (.updateDefault [(workerGroupKey, .str [0x31])]) ↔
        Complete ⟨[⟨1, [0x67]⟩], 2, [], [], none⟩ (.updateDefault [(workerGroupKey, .str [0x31])])) :=
  ⟨by decide +kernel, answered_iff_complete directRoute _ _ (by decide +kernel)⟩

/-- A rule for `a` without `worker_group`, a default route to a seventh group, and
clearing the CIDR rules. -/
def unanswered : List Call :=
  [.createDomains [(patternsKey, .arr [.str [0x61]])], .updateDefault [(workerGroupKey, .int 7)],
    .clearCIDRs]

/-- After installation the serializers accept these calls and each ends in an
exception. -/
theorem accepted_unanswered : unanswered.all (accepts (installed directRoute)) = true ∧
    ∀ call ∈ unanswered, ¬Answered directRoute (installed directRoute) call := by
  refine ⟨by decide +kernel, ?_⟩
  have hnone : ∀ call e, view directRoute (installed directRoute) call = .error e →
      ¬Answered directRoute (installed directRoute) call := by
    rintro call e hview ⟨r, c, hr, -⟩
    rw [hview] at hr
    cases hr
  intro call hcall
  simp only [unanswered, List.mem_cons, List.not_mem_nil, or_false] at hcall
  obtain rfl | rfl | rfl := hcall
  · exact hnone _ .typeError rfl
  · exact hnone _ .doesNotExist rfl
  · exact hnone _ .attributeError rfl

end SplitProxy.Admin
