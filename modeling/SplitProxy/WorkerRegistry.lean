import Mathlib.Data.List.Basic
import Mathlib.Data.List.Nodup
import Mathlib.Logic.Function.Basic
import SplitProxy.Runs

/-!
# The broker's registry of workers

The group lists under `groupsMu`, the map of active workers under
`activeWorkersMu` and each worker's own `groupName`, as connects, reconnects,
disconnects and database syncs change them. Every critical section is one step.
-/
namespace SplitProxy.WorkerRegistry

open Runs

abbrev WorkerId := Nat
abbrev Guid := String
abbrev GroupName := String
abbrev SyncId := Nat

/-! ## Group lists -/

structure WorkerGroup where
  workers : List WorkerId
  rr : Nat
  deriving DecidableEq, Repr

abbrev Groups := GroupName → Option WorkerGroup

def members (gs : Groups) (g : GroupName) : List WorkerId :=
  match gs g with
  | none => []
  | some grp => grp.workers

/-- `append(g.workers, w)`, creating the group when it is missing. -/
def appendTo (gs : Groups) (g : GroupName) (w : WorkerId) : Groups :=
  let grp := (gs g).getD ⟨[], 0⟩
  Function.update gs g (some { grp with workers := grp.workers ++ [w] })

/-- Cut the first occurrence of `w` out, and delete a group that becomes empty. -/
def cutFrom (gs : Groups) (g : GroupName) (w : WorkerId) : Groups :=
  match gs g with
  | none => gs
  | some grp =>
    let workers := grp.workers.erase w
    Function.update gs g (if workers = [] then none else some { grp with workers := workers })

/-- `getWorker` takes the group's workers in turn. -/
def getWorker (gs : Groups) (g : GroupName) : Option WorkerId × Groups :=
  match gs g with
  | none => (none, gs)
  | some grp =>
    if grp.workers = [] then (none, gs)
    else (grp.workers[grp.rr % grp.workers.length]?,
      Function.update gs g (some { grp with rr := grp.rr + 1 }))

theorem members_appendTo (gs : Groups) (g g' : GroupName) (w : WorkerId) :
    members (appendTo gs g w) g' = if g' = g then members gs g ++ [w] else members gs g' := by
  by_cases hg : g' = g
  · subst hg
    cases h : gs g' <;> simp [members, appendTo, h]
  · simp [members, appendTo, hg]

theorem members_cutFrom (gs : Groups) (g g' : GroupName) (w : WorkerId) :
    members (cutFrom gs g w) g' = if g' = g then (members gs g).erase w else members gs g' := by
  cases h : gs g with
  | none =>
    by_cases hg : g' = g
    · subst hg
      simp [members, cutFrom, h]
    · simp [members, cutFrom, h, hg]
  | some grp =>
    by_cases hg : g' = g
    · subst hg
      by_cases hn : grp.workers.erase w = [] <;> simp [members, cutFrom, h, hn]
    · simp [members, cutFrom, h, hg]

theorem members_getWorker (gs : Groups) (g g' : GroupName) :
    members (getWorker gs g).2 g' = members gs g' := by
  cases h : gs g with
  | none => simp [getWorker, h]
  | some grp =>
    by_cases hn : grp.workers = []
    · simp [getWorker, h, hn]
    · by_cases hg : g' = g
      · subst hg
        simp [members, getWorker, h, hn]
      · simp [members, getWorker, h, hn, hg]

/-- `getWorker` only ever returns a member of the group. -/
theorem getWorker_mem {gs : Groups} {g : GroupName} {w : WorkerId}
    (h : (getWorker gs g).1 = some w) : w ∈ members gs g := by
  cases hg : gs g with
  | none => simp [getWorker, hg] at h
  | some grp =>
    by_cases hn : grp.workers = []
    · simp [getWorker, hg, hn] at h
    · simp only [getWorker, hg, hn, ↓reduceIte] at h
      simp only [members, hg]
      exact List.mem_of_getElem? h

/-! ## The operations in progress -/

/-- `workerHandler` from the worker it builds to the goroutines it starts. -/
inductive HandlerPc where
  | absent
  | created
  | gotActive (old : Option WorkerId)
  | activeSet (old : Option WorkerId)
  | removingOld (old : WorkerId)
  | running
  deriving DecidableEq, Repr

/-- The one execution of `removeWorker`. -/
inductive RemovePc where
  | notCalled
  | activeChecked
  | groupLeft
  | finished
  deriving DecidableEq, Repr

/-- `syncWorkersFromDB` on one row. -/
inductive SyncPc where
  | idle
  | moving (w : WorkerId) (newGroup : GroupName)
  deriving DecidableEq, Repr

structure State where
  groups : Groups
  groupName : WorkerId → GroupName
  workerGUID : WorkerId → Guid
  activeWorkers : Guid → Option WorkerId
  handler : WorkerId → HandlerPc
  removal : WorkerId → RemovePc
  sync : SyncId → SyncPc

def initial : State where
  groups := fun _ => none
  groupName := fun _ => ""
  workerGUID := fun _ => ""
  activeWorkers := fun _ => none
  handler := fun _ => .absent
  removal := fun _ => .notCalled
  sync := fun _ => .idle

def setHandler (s : State) (w : WorkerId) (pc : HandlerPc) : State :=
  { s with handler := Function.update s.handler w pc }

def setRemoval (s : State) (w : WorkerId) (pc : RemovePc) : State :=
  { s with removal := Function.update s.removal w pc }

def addWorkerToGroup (s : State) (w : WorkerId) : State :=
  { s with groups := appendTo s.groups (s.groupName w) w }

def removeWorkerFromGroup (s : State) (w : WorkerId) : State :=
  { s with groups := cutFrom s.groups (s.groupName w) w }

def moveWorkerToGroup (s : State) (w : WorkerId) (newGroup : GroupName) : State :=
  if s.groupName w = newGroup then s
  else
    let cut := cutFrom s.groups (s.groupName w) w
    { s with
      groups := if newGroup = "" then cut else appendTo cut newGroup w
      groupName := Function.update s.groupName w newGroup }

inductive Event where
  | connect (w : WorkerId) (guid : Guid) (group : GroupName)
  | getActive (w : WorkerId)
  | setActive (w : WorkerId)
  | addToGroup (w : WorkerId)
  | oldRemoved (w : WorkerId)
  /-- `removeWorker(w)` by a goroutine of `w`, or by the handler of the worker replacing it -/
  | removeBegin (w : WorkerId) (caller : Option WorkerId)
  | leaveGroup (w : WorkerId)
  | removeEnd (w : WorkerId)
  | syncGet (k : SyncId) (guid : Guid) (group : GroupName)
  | syncMove (k : SyncId)
  | getWorker (g : GroupName)
  deriving DecidableEq, Repr

/-- The caller of `removeWorker(w)` has reached its call. -/
def callsRemove (s : State) (w : WorkerId) : Option WorkerId → Bool
  | none => s.handler w = .running
  | some x => s.handler x = .removingOld w

def step (s : State) : Event → Option State
  | .connect w guid group =>
    if s.handler w = .absent then
      some { setHandler s w .created with
        groupName := Function.update s.groupName w group
        workerGUID := Function.update s.workerGUID w guid }
    else none
  | .getActive w =>
    if s.handler w = .created then
      some (setHandler s w (.gotActive (s.activeWorkers (s.workerGUID w)))) else none
  | .setActive w =>
    match s.handler w with
    | .gotActive old =>
      some { setHandler s w (.activeSet old) with
        activeWorkers := Function.update s.activeWorkers (s.workerGUID w) (some w) }
    | _ => none
  | .addToGroup w =>
    match s.handler w with
    | .activeSet old =>
      some (addWorkerToGroup (setHandler s w
        (match old with
          | none => .running
          | some o => .removingOld o)) w)
    | _ => none
  | .oldRemoved w =>
    match s.handler w with
    | .removingOld old =>
      if s.removal old = .finished then some (setHandler s w .running) else none
    | _ => none
  | .removeBegin w caller =>
    if callsRemove s w caller = true ∧ s.removal w = .notCalled then
      some { setRemoval s w .activeChecked with
        activeWorkers :=
          if s.activeWorkers (s.workerGUID w) = some w then
            Function.update s.activeWorkers (s.workerGUID w) none
          else s.activeWorkers }
    else none
  | .leaveGroup w =>
    if s.removal w = .activeChecked then
      some (removeWorkerFromGroup (setRemoval s w .groupLeft) w) else none
  | .removeEnd w =>
    if s.removal w = .groupLeft then some (setRemoval s w .finished) else none
  | .syncGet k guid group =>
    if s.sync k = .idle then
      match s.activeWorkers guid with
      | none => some s
      | some w => some { s with sync := Function.update s.sync k (.moving w group) }
    else none
  | .syncMove k =>
    match s.sync k with
    | .moving w group =>
      some { moveWorkerToGroup s w group with sync := Function.update s.sync k .idle }
    | .idle => none
  | .getWorker g => some { s with groups := (getWorker s.groups g).2 }

/-- `removeWorkerFromGroup(w)` of its `removeWorker` has run. -/
def left (s : State) (w : WorkerId) : Prop :=
  s.removal w = .groupLeft ∨ s.removal w = .finished

/-- No operation on the registry is in progress. -/
def Quiescent (s : State) : Prop :=
  (∀ w, s.handler w = .absent ∨ s.handler w = .running) ∧
    (∀ w, s.removal w = .notCalled ∨ s.removal w = .finished) ∧ ∀ k, s.sync k = .idle

/-- Every listed worker is not removed, belongs to the group and occurs once
over all lists, and `getWorker` answers with no removed worker. -/
structure Registered (s : State) : Prop where
  notRemoved : ∀ g, ∀ w ∈ members s.groups g, s.removal w = .notCalled
  ownGroup : ∀ g, ∀ w ∈ members s.groups g, s.groupName w = g
  once : ∀ g, ∀ w ∈ members s.groups g, (members s.groups g).count w = 1 ∧
    ∀ g', w ∈ members s.groups g' → g' = g
  answers : ∀ g w, (getWorker s.groups g).1 = some w → s.removal w = .notCalled

/-- A step that appends `w` to a list finds `removeWorkerFromGroup(w)` not yet
run, and `addWorkerToGroup(w)` finds `w` in no list. -/
def AppendsSafely (s : State) : Event → Prop
  | .addToGroup w => ¬left s w ∧ ∀ g, w ∉ members s.groups g
  | .syncMove k => ∀ w g, s.sync k = .moving w g → s.groupName w ≠ g → g ≠ "" → ¬left s w
  | _ => True

variable {s t : State} {e : Event}

/-! ## What a step does -/

inductive Move (s : State) : Event → State → Prop where
  | connect {w : WorkerId} {guid : Guid} {group : GroupName} (hw : s.handler w = .absent) :
      Move s (.connect w guid group)
        { setHandler s w .created with
          groupName := Function.update s.groupName w group
          workerGUID := Function.update s.workerGUID w guid }
  | getActive {w : WorkerId} (hw : s.handler w = .created) :
      Move s (.getActive w) (setHandler s w (.gotActive (s.activeWorkers (s.workerGUID w))))
  | setActive {w : WorkerId} {old : Option WorkerId} (hw : s.handler w = .gotActive old) :
      Move s (.setActive w)
        { setHandler s w (.activeSet old) with
          activeWorkers := Function.update s.activeWorkers (s.workerGUID w) (some w) }
  | addFirst {w : WorkerId} (hw : s.handler w = .activeSet none) :
      Move s (.addToGroup w) (addWorkerToGroup (setHandler s w .running) w)
  | addReplacing {w old : WorkerId} (hw : s.handler w = .activeSet (some old)) :
      Move s (.addToGroup w) (addWorkerToGroup (setHandler s w (.removingOld old)) w)
  | oldRemoved {w old : WorkerId} (hw : s.handler w = .removingOld old)
      (hr : s.removal old = .finished) : Move s (.oldRemoved w) (setHandler s w .running)
  | removeBegin {w : WorkerId} {caller : Option WorkerId} (hc : callsRemove s w caller = true)
      (hr : s.removal w = .notCalled) :
      Move s (.removeBegin w caller)
        { setRemoval s w .activeChecked with
          activeWorkers :=
            if s.activeWorkers (s.workerGUID w) = some w then
              Function.update s.activeWorkers (s.workerGUID w) none
            else s.activeWorkers }
  | leaveGroup {w : WorkerId} (hr : s.removal w = .activeChecked) :
      Move s (.leaveGroup w) (removeWorkerFromGroup (setRemoval s w .groupLeft) w)
  | removeEnd {w : WorkerId} (hr : s.removal w = .groupLeft) :
      Move s (.removeEnd w) (setRemoval s w .finished)
  | syncMissing {k : SyncId} {guid : Guid} {group : GroupName} (hk : s.sync k = .idle)
      (hw : s.activeWorkers guid = none) : Move s (.syncGet k guid group) s
  | syncGet {k : SyncId} {guid : Guid} {group : GroupName} {w : WorkerId} (hk : s.sync k = .idle)
      (hw : s.activeWorkers guid = some w) :
      Move s (.syncGet k guid group)
        { s with sync := Function.update s.sync k (.moving w group) }
  | syncMove {k : SyncId} {w : WorkerId} {group : GroupName} (hk : s.sync k = .moving w group) :
      Move s (.syncMove k)
        { moveWorkerToGroup s w group with sync := Function.update s.sync k .idle }
  | getWorker {g : GroupName} :
      Move s (.getWorker g) { s with groups := (WorkerRegistry.getWorker s.groups g).2 }

theorem step_move (h : step s e = some t) : Move s e t := by
  cases e with
  | connect w guid group =>
    simp only [step] at h
    split at h <;> cases h
    exact .connect ‹_›
  | getActive w =>
    simp only [step] at h
    split at h <;> cases h
    exact .getActive ‹_›
  | setActive w =>
    simp only [step] at h
    split at h <;> cases h
    exact .setActive ‹_›
  | addToGroup w =>
    simp only [step] at h
    split at h
    · rename_i old hw
      cases h
      cases old with
      | none => exact .addFirst hw
      | some o => exact .addReplacing hw
    · cases h
  | oldRemoved w =>
    simp only [step] at h
    split at h
    · split at h <;> cases h
      exact .oldRemoved ‹_› ‹_›
    · cases h
  | removeBegin w caller =>
    simp only [step] at h
    split at h <;> rename_i hc <;> cases h
    exact .removeBegin hc.1 hc.2
  | leaveGroup w =>
    simp only [step] at h
    split at h <;> cases h
    exact .leaveGroup ‹_›
  | removeEnd w =>
    simp only [step] at h
    split at h <;> cases h
    exact .removeEnd ‹_›
  | syncGet k guid group =>
    simp only [step] at h
    split at h
    · split at h <;> cases h
      · exact .syncMissing ‹_› ‹_›
      · exact .syncGet ‹_› ‹_›
    · cases h
  | syncMove k =>
    simp only [step] at h
    split at h <;> cases h
    exact .syncMove ‹_›
  | getWorker g =>
    cases h
    exact .getWorker

/-! ## The lists -/

/-- What holds between the critical sections too. -/
structure Lists (s : State) : Prop where
  ownGroup : ∀ g, ∀ w ∈ members s.groups g, s.groupName w = g
  once : ∀ g, (members s.groups g).Nodup
  stays : ∀ g, ∀ w ∈ members s.groups g, ¬left s w
  absent : ∀ g, ∀ w ∈ members s.groups g, s.handler w ≠ .absent

/-- Cutting a worker out of its own group takes it out of every list. -/
theorem not_mem_cutFrom (hs : Lists s) (w : WorkerId) (g : GroupName) :
    w ∉ members (cutFrom s.groups (s.groupName w) w) g := by
  rw [members_cutFrom]
  by_cases hg : g = s.groupName w
  · rw [if_pos hg]
    intro hm
    have hcount := List.count_pos_iff.mpr hm
    have hle := List.nodup_iff_count_le_one.mp (hs.once (s.groupName w)) w
    rw [List.count_erase_self] at hcount
    omega
  · rw [if_neg hg]
    intro hm
    exact hg (hs.ownGroup g w hm).symm

theorem mem_of_mem_cutFrom {gs : Groups} {g g' : GroupName} {w x : WorkerId}
    (h : x ∈ members (cutFrom gs g w) g') : x ∈ members gs g' := by
  rw [members_cutFrom] at h
  by_cases hg : g' = g
  · subst hg
    rw [if_pos rfl] at h
    exact List.mem_of_mem_erase h
  · rwa [if_neg hg] at h

theorem nodup_cutFrom {gs : Groups} (h : ∀ g, (members gs g).Nodup) (g g' : GroupName)
    (w : WorkerId) : (members (cutFrom gs g w) g').Nodup := by
  rw [members_cutFrom]
  split
  · exact (h g).erase w
  · exact h g'

/-- Appending a worker that is in no list. -/
theorem nodup_appendTo {gs : Groups} (h : ∀ g, (members gs g).Nodup) {w : WorkerId}
    (hw : ∀ g, w ∉ members gs g) (g g' : GroupName) : (members (appendTo gs g w) g').Nodup := by
  rw [members_appendTo]
  split
  · exact List.nodup_append.mpr ⟨h g, List.nodup_singleton w, by
      intro a ha b hb
      rw [List.mem_singleton] at hb
      rintro rfl
      exact hw g (hb ▸ ha)⟩
  · exact h g'

theorem mem_appendTo {gs : Groups} {g g' : GroupName} {w x : WorkerId} :
    x ∈ members (appendTo gs g w) g' ↔ x ∈ members gs g' ∨ (g' = g ∧ x = w) := by
  rw [members_appendTo]
  by_cases hg : g' = g
  · subst hg
    simp
  · simp [hg]

theorem lists_initial : Lists initial := by
  constructor <;> simp [members, initial]

/-- A worker that any list or any operation knows of has been built. -/
structure Seen (s : State) : Prop where
  active : ∀ guid w, s.activeWorkers guid = some w → s.handler w ≠ .absent
  sync : ∀ k w g, s.sync k = .moving w g → s.handler w ≠ .absent

theorem seen_initial : Seen initial := by
  constructor <;> simp [initial]

/-- A handler never goes back to where it has not started. -/
theorem handler_step (h : step s e = some t) {x : WorkerId} (hx : s.handler x ≠ .absent) :
    t.handler x ≠ .absent := by
  have hset : ∀ w pc, pc ≠ .absent → Function.update s.handler w pc x ≠ .absent := by
    intro w pc hpc
    by_cases hw : x = w
    · subst hw
      rwa [Function.update_self]
    · rwa [Function.update_of_ne hw]
  cases step_move h with
  | @connect w | @getActive w | @setActive w | @addFirst w | @addReplacing w | @oldRemoved w =>
    exact hset w _ (by simp)
  | removeBegin | leaveGroup | removeEnd | syncMissing | syncGet | getWorker => exact hx
  | syncMove =>
    unfold moveWorkerToGroup
    split <;> exact hx

theorem seen_step (hs : Seen s) (h : step s e = some t) : Seen t := by
  have hkeep : ∀ x, s.handler x ≠ .absent → t.handler x ≠ .absent := fun x hx => handler_step h hx
  cases step_move h with
  | @setActive w old hw =>
    have hset : s.handler w ≠ .absent := by simp [hw]
    refine ⟨fun guid x hx => hkeep x ?_, fun k x g hx => hkeep x (hs.sync k x g hx)⟩
    by_cases hg : guid = s.workerGUID w
    · subst hg
      simp only [Function.update_self, Option.some.injEq] at hx
      rwa [← hx]
    · simp only [Function.update_of_ne hg] at hx
      exact hs.active guid x hx
  | @removeBegin w =>
    refine ⟨fun guid x hx => hkeep x ?_, fun k x g hx => hkeep x (hs.sync k x g hx)⟩
    by_cases ha : s.activeWorkers (s.workerGUID w) = some w
    · by_cases hg : guid = s.workerGUID w
      · subst hg
        simp [ha] at hx
      · simp only [ha, ↓reduceIte, Function.update_of_ne hg] at hx
        exact hs.active guid x hx
    · simp only [ha, ↓reduceIte] at hx
      exact hs.active guid x hx
  | syncMissing | getWorker => exact ⟨hs.active, hs.sync⟩
  | @syncGet k guid group w hk hw =>
    refine ⟨hs.active, fun k' x g hx => ?_⟩
    by_cases hk : k' = k
    · subst hk
      simp only [Function.update_self, SyncPc.moving.injEq] at hx
      rw [← hx.1]
      exact hs.active guid w hw
    · simp only [Function.update_of_ne hk] at hx
      exact hs.sync k' x g hx
  | @syncMove k w group =>
    have hm : (moveWorkerToGroup s w group).activeWorkers = s.activeWorkers := by
      unfold moveWorkerToGroup
      split <;> rfl
    refine ⟨fun guid x hx => hkeep x (hs.active guid x (by rwa [← hm])), fun k' x g hx => ?_⟩
    by_cases hk : k' = k
    · subst hk
      simp at hx
    · simp only [Function.update_of_ne hk] at hx
      exact hkeep x (hs.sync k' x g hx)
  | _ =>
    exact ⟨fun guid x hx => hkeep x (hs.active guid x hx),
      fun k x g hx => hkeep x (hs.sync k x g hx)⟩

/-- A step that leaves the lists, the names and `left` alone. -/
theorem lists_frame (hs : Lists s) (h : step s e = some t)
    (hm : ∀ g, members t.groups g = members s.groups g)
    (hn : ∀ x, s.handler x ≠ .absent → t.groupName x = s.groupName x)
    (hl : ∀ x, left t x → left s x) : Lists t := by
  refine ⟨fun g x hx => ?_, fun g => ?_, fun g x hx hlx => ?_, fun g x hx => ?_⟩
  · rw [hm] at hx
    rw [hn x (hs.absent g x hx)]
    exact hs.ownGroup g x hx
  · rw [hm]
    exact hs.once g
  · rw [hm] at hx
    exact hs.stays g x hx (hl x hlx)
  · rw [hm] at hx
    exact handler_step h (hs.absent g x hx)

/-- `addWorkerToGroup` lists a worker that is in no list. -/
theorem lists_append {w : WorkerId} {pc : HandlerPc} (hs : Lists s)
    (hc : AppendsSafely s (.addToGroup w)) (hw : s.handler w ≠ .absent)
    (h : step s (.addToGroup w) = some (addWorkerToGroup (setHandler s w pc) w)) :
    Lists (addWorkerToGroup (setHandler s w pc) w) := by
  obtain ⟨hleft, hnot⟩ := hc
  refine ⟨fun g x hx => ?_, fun g => ?_, fun g x hx => ?_, fun g x hx => ?_⟩
  · rcases mem_appendTo.mp hx with hx | ⟨hg, hx⟩
    · exact hs.ownGroup g x hx
    · rw [hx, hg]
      rfl
  · exact nodup_appendTo hs.once hnot _ g
  · rcases mem_appendTo.mp hx with hx | ⟨-, hx⟩
    · exact hs.stays g x hx
    · rw [hx]
      exact hleft
  · rcases mem_appendTo.mp hx with hx | ⟨-, hx⟩
    · exact handler_step h (hs.absent g x hx)
    · rw [hx]
      exact handler_step h hw

theorem lists_leave {w : WorkerId} (hs : Lists s)
    (h : step s (.leaveGroup w) = some (removeWorkerFromGroup (setRemoval s w .groupLeft) w)) :
    Lists (removeWorkerFromGroup (setRemoval s w .groupLeft) w) := by
  have hmem : ∀ g x, x ∈ members (cutFrom s.groups (s.groupName w) w) g →
      x ≠ w ∧ x ∈ members s.groups g := by
    intro g x hx
    refine ⟨?_, mem_of_mem_cutFrom hx⟩
    rintro rfl
    exact not_mem_cutFrom hs x g hx
  refine ⟨fun g x hx => ?_, fun g => ?_, fun g x hx => ?_, fun g x hx => ?_⟩
  · exact hs.ownGroup g x (hmem g x hx).2
  · exact nodup_cutFrom hs.once _ g w
  · obtain ⟨hne, hx⟩ := hmem g x hx
    have hstays := hs.stays g x hx
    simpa [left, removeWorkerFromGroup, setRemoval, Function.update_of_ne hne] using hstays
  · exact handler_step h (hs.absent g x (hmem g x hx).2)

theorem lists_move {k : SyncId} {w : WorkerId} {group : GroupName} (hk : Seen s) (hs : Lists s)
    (hc : AppendsSafely s (.syncMove k)) (hw : s.sync k = .moving w group)
    (h : step s (.syncMove k) =
      some { moveWorkerToGroup s w group with sync := Function.update s.sync k .idle }) :
    Lists { moveWorkerToGroup s w group with sync := Function.update s.sync k .idle } := by
  have hkeep := fun x (hx : s.handler x ≠ .absent) => handler_step h hx
  by_cases hsame : s.groupName w = group
  · refine lists_frame hs h ?_ ?_ ?_ <;> simp [moveWorkerToGroup, hsame, left]
  · have hgone : ∀ g, w ∉ members (cutFrom s.groups (s.groupName w) w) g := not_mem_cutFrom hs w
    have hcut : ∀ g, (members (cutFrom s.groups (s.groupName w) w) g).Nodup :=
      fun g => nodup_cutFrom hs.once _ g w
    have hold : ∀ g x, x ∈ members (cutFrom s.groups (s.groupName w) w) g →
        x ≠ w ∧ x ∈ members s.groups g := by
      intro g x hx
      refine ⟨?_, mem_of_mem_cutFrom hx⟩
      rintro rfl
      exact hgone g hx
    have hmem : ∀ g x, x ∈ members (moveWorkerToGroup s w group).groups g →
        (x ≠ w ∧ x ∈ members s.groups g) ∨ (x = w ∧ g = group ∧ group ≠ "") := by
      intro g x hx
      by_cases hempty : group = ""
      · simp only [moveWorkerToGroup, hempty, ↓reduceIte] at hx
        rw [if_neg (fun he => hsame (he.trans hempty.symm))] at hx
        exact .inl (hold g x hx)
      · simp only [moveWorkerToGroup, hsame, hempty, ↓reduceIte] at hx
        rcases mem_appendTo.mp hx with hx | ⟨hg, hx⟩
        · exact .inl (hold g x hx)
        · exact .inr ⟨hx, hg, hempty⟩
    have hnodup : ∀ g, (members (moveWorkerToGroup s w group).groups g).Nodup := by
      intro g
      by_cases hempty : group = ""
      · simp only [moveWorkerToGroup, hsame, ↓reduceIte, if_pos hempty]
        exact hcut g
      · simp only [moveWorkerToGroup, hsame, hempty, ↓reduceIte]
        exact nodup_appendTo hcut hgone group g
    have hname : ∀ x, (moveWorkerToGroup s w group).groupName x =
        if x = w then group else s.groupName x := by
      intro x
      by_cases hx : x = w <;> simp [moveWorkerToGroup, hsame, hx]
    have hleft : ∀ x, left (moveWorkerToGroup s w group) x ↔ left s x := by
      intro x
      simp [moveWorkerToGroup, hsame, left]
    refine ⟨fun g x hx => ?_, hnodup, fun g x hx => ?_, fun g x hx => ?_⟩
    · rcases hmem g x hx with ⟨hne, hx⟩ | ⟨rfl, hg, -⟩
      · exact (hname x).trans ((if_neg hne).trans (hs.ownGroup g x hx))
      · exact (hname x).trans ((if_pos rfl).trans hg.symm)
    · rcases hmem g x hx with ⟨-, hx⟩ | ⟨rfl, -, hempty⟩
      · exact fun hl => hs.stays g x hx ((hleft x).mp hl)
      · exact fun hl => hc x group hw hsame hempty ((hleft x).mp hl)
    · rcases hmem g x hx with ⟨-, hx⟩ | ⟨rfl, -, -⟩
      · exact hkeep x (hs.absent g x hx)
      · exact hkeep x (hk.sync k x group hw)

theorem lists_step (hk : Seen s) (hs : Lists s) (hc : AppendsSafely s e)
    (h : step s e = some t) : Lists t := by
  cases step_move h with
  | addFirst hw | addReplacing hw => exact lists_append hs hc (by simp [hw]) h
  | leaveGroup => exact lists_leave hs h
  | syncMove hw => exact lists_move hk hs hc hw h
  | @connect w guid group hw =>
    refine lists_frame hs h (fun g => rfl) (fun x hx => ?_) (fun x hx => hx)
    have hne : x ≠ w := by
      rintro rfl
      exact hx hw
    exact Function.update_of_ne hne _ _
  | @removeBegin w =>
    refine lists_frame hs h (fun g => rfl) (fun x hx => rfl) (fun x hx => ?_)
    by_cases hw : x = w
    · subst hw
      simp [left, setRemoval] at hx
    · simpa [left, setRemoval, hw] using hx
  | @removeEnd w hr =>
    refine lists_frame hs h (fun g => rfl) (fun x hx => rfl) (fun x hx => ?_)
    by_cases hw : x = w
    · subst hw
      exact .inl hr
    · simpa [left, setRemoval, hw] using hx
  | getWorker =>
    exact lists_frame hs h (members_getWorker s.groups _) (fun x hx => rfl) (fun x hx => hx)
  | _ => exact lists_frame hs h (fun g => rfl) (fun x hx => rfl) (fun x hx => hx)

/-- Between operations the lists are exactly right. -/
theorem registered_of_lists (hs : Lists s) (hq : Quiescent s) : Registered s := by
  have hnot : ∀ g, ∀ w ∈ members s.groups g, s.removal w = .notCalled := by
    intro g w hw
    rcases hq.2.1 w with hr | hr
    · exact hr
    · exact absurd (.inr hr) (hs.stays g w hw)
  refine ⟨hnot, hs.ownGroup, fun g w hw => ⟨?_, fun g' hw' => ?_⟩, fun g w h => ?_⟩
  · have hle := List.nodup_iff_count_le_one.mp (hs.once g) w
    have hpos := List.count_pos_iff.mpr hw
    omega
  · rw [← hs.ownGroup g' w hw', hs.ownGroup g w hw]
  · exact hnot g w (getWorker_mem h)

/-- In a run whose appends are all safe, the registry is right whenever no
operation is in progress. -/
theorem registered_of_appends (es : List Event) (hc : Meets step AppendsSafely initial es) :
    Always step (fun s => Quiescent s → Registered s) initial es := by
  refine @always_of_invariant _ _ _ AppendsSafely (fun s => Seen s ∧ Lists s) _ ?_ ?_ _ _
    ⟨seen_initial, lists_initial⟩ hc
  · exact fun s e t hs hc h => ⟨seen_step hs.1 h, lists_step hs.1 hs.2 hc h⟩
  · exact fun s hs hq => registered_of_lists hs.2 hq

/-- A worker connects, is moved by a sync and disconnects. -/
def orderlyRun : List Event :=
  [.connect 0 "a" "g", .getActive 0, .setActive 0, .addToGroup 0, .syncGet 0 "a" "h", .syncMove 0,
    .getWorker "h", .removeBegin 0 none, .leaveGroup 0, .removeEnd 0]

theorem registered_orderly : Meets step AppendsSafely initial orderlyRun ∧
    Always step (fun s => Quiescent s → Registered s) initial orderlyRun := by
  have hc : Meets step AppendsSafely initial orderlyRun := by
    simp [orderlyRun, Meets, AppendsSafely, step, initial, setHandler, setRemoval,
      addWorkerToGroup, removeWorkerFromGroup, moveWorkerToGroup, callsRemove, left, members]
  exact ⟨hc, registered_of_appends orderlyRun hc⟩

/-- A sync moves the worker between `setActiveWorker` and `addWorkerToGroup`. -/
def doubleListing : List Event :=
  [.connect 0 "a" "g", .getActive 0, .setActive 0, .syncGet 0 "a" "h", .syncMove 0, .addToGroup 0]

/-- A sync has looked the worker up before it is removed and moves it afterwards. -/
def deadListing : List Event :=
  [.connect 0 "a" "g", .getActive 0, .setActive 0, .addToGroup 0, .syncGet 0 "a" "h",
    .removeBegin 0 none, .leaveGroup 0, .removeEnd 0, .syncMove 0]

theorem registry_broken :
    (¬∀ es, Always step (fun s => Quiescent s → Registered s) initial es) ∧
    ∃ t, run step initial deadListing = some t ∧ Quiescent t ∧
      (getWorker t.groups "h").1 = some 0 ∧ t.removal 0 = .finished := by
  constructor
  · intro h
    have hr := h doubleListing doubleListing [] _ (by simp) rfl
    have hreg := hr ⟨fun w => ?_, fun w => .inl rfl, fun k => ?_⟩
    · exact absurd (hreg.once "h" 0 (by decide)).1 (by decide)
    · cases w with
      | zero => exact .inr rfl
      | succ w => exact .inl rfl
    · cases k with
      | zero => rfl
      | succ k => rfl
  · refine ⟨_, rfl, ⟨fun w => ?_, fun w => ?_, fun k => ?_⟩, by decide, by decide⟩
    · cases w with
      | zero => exact .inr rfl
      | succ w => exact .inl rfl
    · cases w with
      | zero => exact .inr rfl
      | succ w => exact .inl rfl
    · cases k with
      | zero => rfl
      | succ k => rfl

end SplitProxy.WorkerRegistry
