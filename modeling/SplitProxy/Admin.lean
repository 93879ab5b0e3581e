import SplitProxy.Runs
import SplitProxy.SyncMap
import SplitProxy.PyIPNetwork
import SplitProxy.LoadRoutes

/-!
# The admin API over groups and routes

The worker groups in PostgreSQL and the two route hashes and the default-route
key in Redis, with the requests that change them. Each request runs to its end
before the next. A request is answered and says what it changes; only that
change is applied.
-/
namespace SplitProxy.Admin

open GoText SyncMap

/-! ## Fields -/

/-- The white space of Python's `str.strip`. -/
def pySpaces : List Bytes := spaces ++ [[0x1C], [0x1D], [0x1E], [0x1F]]

/-- `str.strip`. -/
def strip (s : Bytes) : Bytes :=
  let s := dropWords pySpaces s.length s
  (dropWords (pySpaces.map List.reverse) s.length s.reverse).reverse

/-- A `CharField` that may not be blank: trimmed, no longer than so many
characters, without null characters. -/
def charField (maxLength : Nat) (s : Bytes) : Option Bytes :=
  let text := strip s
  if text = [] then none
  else if maxLength < (decode text).length then none
  else if (0x00 : UInt8) ∈ text then none
  else some text

/-- `DIRECT_ROUTE`. -/
def directRoute : Bytes := [0x64, 0x69, 0x72, 0x65, 0x63, 0x74]

structure WorkerGroup where
  pk : Nat
  groupName : Bytes
  deriving DecidableEq, Repr

structure Store where
  groups : List WorkerGroup
  nextPk : Nat
  domains : Entries Bytes Bytes
  cidrs : Entries Bytes Bytes
  defaultRoute : Option Bytes
  deriving DecidableEq, Repr

/-- After the migrations; `d` is `settings.DEFAULT_GROUP_NAME`. -/
def installed (d : Bytes) : Store := ⟨[], 1, [], [], some d⟩

def getGroup (s : Store) (pk : Nat) : Option WorkerGroup := s.groups.find? (·.pk = pk)

/-- `WorkerGroup.objects.filter(group_name=..).first()`. -/
def groupNamed (s : Store) (name : Bytes) : Option WorkerGroup := s.groups.find? (·.groupName = name)

/-- `services.worker_group_has_routes`. -/
def workerGroupHasRoutes (s : Store) (g : WorkerGroup) : Bool :=
  s.domains.any (·.2 = g.groupName) || s.cidrs.any (·.2 = g.groupName) ||
    s.defaultRoute = some g.groupName

/-- The `worker_group` of a body. -/
inductive GroupField where
  | absent
  | null
  | pk (n : Nat)
  deriving DecidableEq, Repr

/-- The field after validation: refused, left out, or a group or none for direct. -/
inductive Validated where
  | invalid
  | absent
  | group (g : Option WorkerGroup)
  deriving DecidableEq, Repr

/-- `to_internal_value` of the route serializers and their `PrimaryKeyRelatedField`. -/
def workerGroupField (s : Store) : GroupField → Validated
  | .absent => .absent
  | .null => .group none
  | .pk n =>
    if n = 0 then .group none
    else
      match getGroup s n with
      | none => .invalid
      | some g => .group (some g)

/-- What a route with this group holds in Redis. -/
def routeName : Option WorkerGroup → Bytes
  | none => directRoute
  | some g => g.groupName

def routePk : Option WorkerGroup → Nat
  | none => 0
  | some g => g.pk

/-- The outcome of `WorkerGroupSerializer` for a name. -/
inductive NameField where
  | invalid
  /-- PostgreSQL refuses the row: blank names skip the `UniqueValidator` -/
  | conflict
  | valid (name : Bytes)
  deriving DecidableEq, Repr

/-- The validation of `group_name`, and the unique constraint behind it; `self` is
the row being updated. -/
def groupNameField (d : Bytes) (s : Store) (self : Option Nat) (name : Bytes) : NameField :=
  let others := s.groups.filter (fun g => some g.pk ≠ self)
  if strip name = [] then
    if others.any (·.groupName = []) then .conflict else .valid []
  else
    match charField 255 name with
    | none => .invalid
    | some name =>
      if others.any (·.groupName = name) then .invalid
      else if name = d then .invalid
      else .valid name

/-! ## Requests -/

inductive Request where
  | createGroup (name : Option Bytes)
  | updateGroup (pk : Nat) (name : Option Bytes)
  | deleteGroup (pk : Nat)
  | createDomains (patterns : List Bytes) (group : GroupField)
  | updateDomain (pattern : Bytes) (group : GroupField)
  | deleteDomain (pattern : Bytes)
  | createCIDRs (cidrs : List Bytes) (group : GroupField)
  | updateCIDR (cidr : Bytes) (group : GroupField)
  | deleteCIDR (cidr : Bytes)
  | clearCIDRs
  | updateDefault (group : Option Nat)
  deriving DecidableEq, Repr

inductive Response where
  | group (status : Nat) (pk : Nat) (name : Bytes)
  | routes (status : Nat) (keys : List Bytes) (group : Nat)
  | default (group : Nat)
  | noContent
  | badRequest
  | notFound
  | serverError
  deriving DecidableEq, Repr

/-- What a request changes. -/
inductive Change where
  | none
  | addGroup (name : Bytes)
  | renameGroup (pk : Nat) (name : Bytes)
  | dropGroup (pk : Nat)
  | setDomains (patterns : List Bytes) (group : Option WorkerGroup)
  | dropDomain (pattern : Bytes)
  | setCIDRs (cidrs : List Bytes) (group : Option WorkerGroup)
  | dropCIDR (cidr : Bytes)
  | setDefault (name : Bytes)
  deriving DecidableEq, Repr

/-- `HSET` of every key. -/
def hsetAll (hash : Entries Bytes Bytes) (keys : List Bytes) (value : Bytes) :
    Entries Bytes Bytes := keys.foldl (fun h k => store h k value) hash

def rename (pk : Nat) (name : Bytes) (g : WorkerGroup) : WorkerGroup :=
  if g.pk = pk then { g with groupName := name } else g

def apply (s : Store) : Change → Store
  | .none => s
  | .addGroup name => { s with groups := s.groups ++ [⟨s.nextPk, name⟩], nextPk := s.nextPk + 1 }
  | .renameGroup pk name => { s with groups := s.groups.map (rename pk name) }
  | .dropGroup pk => { s with groups := s.groups.filter (·.pk ≠ pk) }
  | .setDomains patterns g => { s with domains := hsetAll s.domains patterns (routeName g) }
  | .dropDomain pattern => { s with domains := delete s.domains pattern }
  | .setCIDRs cidrs g => { s with cidrs := hsetAll s.cidrs cidrs (routeName g) }
  | .dropCIDR cidr => { s with cidrs := delete s.cidrs cidr }
  | .setDefault name => { s with defaultRoute := some name }

/-- `WorkerGroupListCreateSerializerAPIView.post`; a name left out is the model's
default, the blank one. -/
def createGroup (d : Bytes) (s : Store) (name : Option Bytes) : Response × Change :=
  match groupNameField d s none (name.getD []) with
  | .invalid => (.badRequest, .none)
  | .conflict => (.serverError, .none)
  | .valid name => (.group 201 s.nextPk name, .addGroup name)

/-- `WorkerGroupRetrieveUpdateDestroyAPIView.patch`. -/
def updateGroup (d : Bytes) (s : Store) (pk : Nat) (name : Option Bytes) : Response × Change :=
  match getGroup s pk with
  | none => (.notFound, .none)
  | some g =>
    match name with
    | none => (.group 200 pk g.groupName, .none)
    | some name =>
      match groupNameField d s (some pk) name with
      | .invalid => (.badRequest, .none)
      | .conflict => (.serverError, .none)
      | .valid name => (.group 200 pk name, .renameGroup pk name)

/-- `perform_destroy`. -/
def deleteGroup (s : Store) (pk : Nat) : Response × Change :=
  match getGroup s pk with
  | none => (.notFound, .none)
  | some g =>
    if workerGroupHasRoutes s g then (.badRequest, .none) else (.noContent, .dropGroup pk)

/-- `DomainRouteListCreateAPIView.post` with `create_domain_route`, which needs the
group it is not given when the body leaves it out. -/
def createDomains (s : Store) (patterns : List Bytes) (group : GroupField) : Response × Change :=
  match patterns.mapM (charField 255), workerGroupField s group with
  | some [], _ => (.badRequest, .none)
  | none, _ => (.badRequest, .none)
  | _, .invalid => (.badRequest, .none)
  | _, .absent => (.serverError, .none)
  | some patterns, .group g => (.routes 201 patterns (routePk g), .setDomains patterns g)

/-- `DomainRouteDetailAPIView.patch`: no look whether the route is there. -/
def updateDomain (s : Store) (pattern : Bytes) (group : GroupField) : Response × Change :=
  match charField 255 pattern, workerGroupField s group with
  | none, _ => (.badRequest, .none)
  | _, .invalid => (.badRequest, .none)
  | _, .absent => (.serverError, .none)
  | some pattern, .group g => (.routes 200 [pattern] (routePk g), .setDomains [pattern] g)

def deleteDomain (s : Store) (pattern : Bytes) : Response × Change :=
  match load s.domains pattern with
  | none => (.notFound, .none)
  | some _ => (.noContent, .dropDomain pattern)

/-- `CIDRsRouteSerializer.validate_cidrs` on the texts its `CharField` leaves. -/
def validateCIDRs (cidrs : List Bytes) : Option (List Bytes) :=
  match cidrs.mapM (charField 255) with
  | none => none
  | some cidrs => if cidrs.all (fun c => (PyIP.ipNetwork c).isSome) then some cidrs else none

/-- `CIDRRouteListCreateAPIView.post` with `create_cidr_route`. -/
def createCIDRs (s : Store) (cidrs : List Bytes) (group : GroupField) : Response × Change :=
  match validateCIDRs cidrs, workerGroupField s group with
  | some [], _ => (.badRequest, .none)
  | none, _ => (.badRequest, .none)
  | _, .invalid => (.badRequest, .none)
  | _, .absent => (.serverError, .none)
  | some cidrs, .group g => (.routes 201 cidrs (routePk g), .setCIDRs cidrs g)

/-- `CIDRRouteSerializer.validate_cidr`, which gives the network's own text. -/
def validateCIDR (cidr : Bytes) : Option Bytes :=
  (charField 64 cidr).bind (fun c => (PyIP.ipNetwork c).map PyIP.Network.string)

/-- `CIDRRouteDetailAPIView.patch`: the look is for the key of the URL, the write
is to the validated one. -/
def updateCIDR (s : Store) (cidr : Bytes) (group : GroupField) : Response × Change :=
  match validateCIDR cidr, workerGroupField s group with
  | none, _ => (.badRequest, .none)
  | _, .invalid => (.badRequest, .none)
  | some validated, group =>
    match load s.cidrs cidr with
    | none => (.notFound, .none)
    | some _ =>
      match group with
      | .group g => (.routes 200 [validated] (routePk g), .setCIDRs [validated] g)
      | _ => (.serverError, .none)

def deleteCIDR (s : Store) (cidr : Bytes) : Response × Change :=
  match load s.cidrs cidr with
  | none => (.notFound, .none)
  | some _ => (.noContent, .dropCIDR cidr)

/-- `DefaultRouteAPIView.patch` with `update_default_route`, which does not handle
a group that is not there. -/
def updateDefault (d : Bytes) (s : Store) (group : Option Nat) : Response × Change :=
  match group with
  | none => (.badRequest, .none)
  | some n =>
    if n = 0 then (.default 0, .setDefault d)
    else
      match getGroup s n with
      | none => (.serverError, .none)
      | some g => (.default g.pk, .setDefault g.groupName)

/-- One request; `services` has no `delete_all_cidr_routes`, so clearing fails. -/
def handle (d : Bytes) (s : Store) : Request → Response × Change
  | .createGroup name => createGroup d s name
  | .updateGroup pk name => updateGroup d s pk name
  | .deleteGroup pk => deleteGroup s pk
  | .createDomains patterns group => createDomains s patterns group
  | .updateDomain pattern group => updateDomain s pattern group
  | .deleteDomain pattern => deleteDomain s pattern
  | .createCIDRs cidrs group => createCIDRs s cidrs group
  | .updateCIDR cidr group => updateCIDR s cidr group
  | .deleteCIDR cidr => deleteCIDR s cidr
  | .clearCIDRs => (.serverError, .none)
  | .updateDefault group => updateDefault d s group

def step (d : Bytes) (s : Store) (r : Request) : Option Store := some (apply s (handle d s r).2)

/-! ## Listings -/

/-- The group a listing shows for a stored name. -/
def listedGroup (s : Store) (name : Bytes) : Option Nat :=
  if name = directRoute then some 0 else (groupNamed s name).map WorkerGroup.pk

/-- `get_default_route`. -/
def getDefaultRoute (d : Bytes) (s : Store) : Option Nat :=
  match s.defaultRoute with
  | none => none
  | some name =>
    if name = [] then none
    else if name = d then some 0
    else (groupNamed s name).map WorkerGroup.pk

end SplitProxy.Admin
