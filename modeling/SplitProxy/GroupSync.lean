import SplitProxy.WorkerRegistry

/-!
# Syncing the groups from the database

`workerSyncLoop` over the registry: a pass loads the table of workers once and then
goes through its rows one by one, while the table is written, workers connect with
the group they read for themselves, and others leave.
-/
namespace SplitProxy.GroupSync

open Runs
open WorkerRegistry (WorkerId Guid GroupName members HandlerPc RemovePc Lists Seen)

/-- `core_worker` joined with `core_workergroup`: one row for each guid, and the
empty name where there is no group. -/
structure Table where
  rows : List (Guid × GroupName)
  distinct : (rows.map Prod.fst).Nodup

structure State where
  registry : WorkerRegistry.State
  table : Table
  /-- what `getWorkerGroup` answered the handler -/
  asked : WorkerId → Option (Guid × GroupName)
  /-- the rows of the pass under way that are still to be looked at -/
  pass : Option (List (Guid × GroupName))

def initial (table : Table) : State := ⟨WorkerRegistry.initial, table, fun _ => none, none⟩

inductive Event where
  | write (table : Table)
  | ask (w : WorkerId) (guid : Guid) (group : GroupName)
  /-- the registry, but for `syncWorkersFromDB` -/
  | registry (e : WorkerRegistry.Event)
  | load (rows : List (Guid × GroupName))
  | next
  | move
  | finish

/-- Handlers connect with what they were told, and passes have steps of their own. -/
def allowed (s : State) : WorkerRegistry.Event → Bool
  | .connect w guid group => s.asked w = some (guid, group)
  | .syncGet _ _ _ | .syncMove _ => false
  | _ => true

def step (s : State) : Event → Option State
  | .write table => some { s with table := table }
  | .ask w guid group =>
    if s.asked w = none ∧ (guid, group) ∈ s.table.rows then
      some { s with asked := Function.update s.asked w (some (guid, group)) }
    else none
  | .registry e =>
    if allowed s e then (WorkerRegistry.step s.registry e).map fun r => { s with registry := r }
    else none
  | .load rows =>
    if s.pass = none ∧ rows.Perm s.table.rows then some { s with pass := some rows } else none
  | .next =>
    match s.pass with
    | some ((guid, group) :: rows) =>
      (WorkerRegistry.step s.registry (.syncGet 0 guid group)).map fun r =>
        { s with registry := r, pass := some rows }
    | _ => none
  | .move =>
    (WorkerRegistry.step s.registry (.syncMove 0)).map fun r => { s with registry := r }
  | .finish =>
    if s.pass = some [] ∧ s.registry.sync 0 = .idle then some { s with pass := none } else none

/-! ## What the registry keeps -/

section Registry

variable {s t : WorkerRegistry.State} {e : WorkerRegistry.Event} {w x : WorkerId} {guid : Guid}

/-- The handler has called `setActiveWorker`. -/
def past : HandlerPc → Bool
  | .absent | .created | .gotActive _ => false
  | .activeSet _ | .removingOld _ | .running => true

/-- The handler has called `addWorkerToGroup`. -/
def added : HandlerPc → Bool
  | .removingOld _ | .running => true
  | _ => false

/-- Only a connect and a move write names. -/
theorem names_step (h : WorkerRegistry.step s e = some t)
    (hconnect : ∀ w guid group, e ≠ .connect w guid group) (hmove : ∀ k, e ≠ .syncMove k) :
    t.groupName = s.groupName ∧ t.workerGUID = s.workerGUID := by
  cases WorkerRegistry.step_move h with
  | connect hw => exact absurd rfl (hconnect _ _ _)
  | syncMove hk => exact absurd rfl (hmove _)
  | getActive | setActive | addFirst | addReplacing | oldRemoved | removeBegin | leaveGroup
  | removeEnd | syncMissing | syncGet | getWorker => exact ⟨rfl, rfl⟩

theorem past_update {pc : HandlerPc} (hpc : past (s.handler w) = true → past pc = true)
    (hx : past (s.handler x) = true) : past (Function.update s.handler w pc x) = true := by
  by_cases hw : x = w
  · subst hw
    rw [Function.update_self]
    exact hpc hx
  · rwa [Function.update_of_ne hw]

theorem past_step (h : WorkerRegistry.step s e = some t) (hx : past (s.handler x) = true) :
    past (t.handler x) = true := by
  cases WorkerRegistry.step_move h with
  | connect hw => exact past_update (by simp [hw, past]) hx
  | getActive hw => exact past_update (by simp [hw, past]) hx
  | setActive hw | addFirst hw | addReplacing hw | oldRemoved hw =>
    exact past_update (by simp [past]) hx
  | removeBegin | leaveGroup | removeEnd | syncMissing | syncGet | getWorker => exact hx
  | syncMove =>
    unfold WorkerRegistry.moveWorkerToGroup
    split <;> exact hx

/-- A worker becomes active by its own `setActiveWorker` only. -/
theorem active_step (h : WorkerRegistry.step s e = some t)
    (hx : t.activeWorkers guid = some x) :
    s.activeWorkers guid = some x ∨
      ∃ old, s.handler x = .gotActive old ∧ s.workerGUID x = guid ∧ e = .setActive x := by
  cases WorkerRegistry.step_move h with
  | @setActive w old hw =>
    by_cases hg : guid = s.workerGUID w
    · subst hg
      simp only [Function.update_self, Option.some.injEq] at hx
      subst hx
      exact Or.inr ⟨old, hw, rfl, rfl⟩
    · simp only [Function.update_of_ne hg] at hx
      exact Or.inl hx
  | @removeBegin w caller =>
    left
    simp only at hx
    split at hx
    · by_cases hg : guid = s.workerGUID w
      · subst hg
        simp at hx
      · rwa [Function.update_of_ne hg] at hx
    · exact hx
  | syncMove =>
    left
    unfold WorkerRegistry.moveWorkerToGroup at hx
    split at hx <;> exact hx
  | connect | getActive | addFirst | addReplacing | oldRemoved | leaveGroup | removeEnd
  | syncMissing | syncGet | getWorker => exact Or.inl hx

/-- The worker a handler is replacing. -/
def oldOf : HandlerPc → Option WorkerId
  | .gotActive old | .activeSet old => old
  | .removingOld old => some old
  | _ => none

/-- An active worker is active under its own guid, by its handler, and is not being
removed; only a worker that was active is. -/
structure Known (s : WorkerRegistry.State) : Prop where
  active : ∀ guid w, s.activeWorkers guid = some w →
    s.workerGUID w = guid ∧ past (s.handler w) = true ∧ s.removal w = .notCalled
  old : ∀ w o, oldOf (s.handler w) = some o → past (s.handler o) = true
  removed : ∀ w, s.removal w ≠ .notCalled → past (s.handler w) = true

theorem known_initial : Known WorkerRegistry.initial := by
  constructor <;> simp [WorkerRegistry.initial, oldOf]

/-- The handler that is replaced was active when it was read. -/
theorem old_step (hi : Known s) (h : WorkerRegistry.step s e = some t) {o : WorkerId}
    (ho : oldOf (t.handler x) = some o) : past (t.handler o) = true := by
  apply past_step h
  have hset : ∀ w pc, (oldOf pc = some o → past (s.handler o) = true) →
      oldOf (Function.update s.handler w pc x) = some o → past (s.handler o) = true := by
    intro w pc hpc hx
    by_cases hw : x = w
    · subst hw
      rw [Function.update_self] at hx
      exact hpc hx
    · rw [Function.update_of_ne hw] at hx
      exact hi.old x o hx
  cases WorkerRegistry.step_move h with
  | @connect w | @oldRemoved w => exact hset w _ (by simp [oldOf]) ho
  | @getActive w hw =>
    exact hset w (.gotActive (s.activeWorkers (s.workerGUID w)))
      (fun ha => (hi.active (s.workerGUID w) o ha).2.1) ho
  | @setActive w old hw => exact hset w _ (fun ha => hi.old w o (by rw [hw]; exact ha)) ho
  | @addFirst w hw => exact hset w _ (by simp [oldOf]) ho
  | @addReplacing w old hw => exact hset w _ (fun ha => hi.old w o (by rw [hw]; exact ha)) ho
  | removeBegin | leaveGroup | removeEnd | syncMissing | syncGet | getWorker => exact hi.old x o ho
  | syncMove =>
    unfold WorkerRegistry.moveWorkerToGroup at ho
    split at ho <;> exact hi.old x o ho

/-- The removal of a worker is begun once it is past, and it is not active then. -/
theorem removal_step (hi : Known s) (h : WorkerRegistry.step s e = some t)
    (hx : t.removal x ≠ .notCalled) : s.removal x ≠ .notCalled ∨
      past (s.handler x) = true ∧ ∀ guid, t.activeWorkers guid ≠ some x := by
  have hset : ∀ w pc, Function.update s.removal w pc x ≠ .notCalled → x ≠ w →
      s.removal x ≠ .notCalled := by
    intro w pc hne hw
    rwa [Function.update_of_ne hw] at hne
  cases WorkerRegistry.step_move h with
  | @removeBegin w caller hc hr =>
    by_cases hw : x = w
    · subst hw
      refine Or.inr ⟨?_, fun guid hguid => ?_⟩
      · cases caller with
        | none =>
          simp only [WorkerRegistry.callsRemove, decide_eq_true_eq] at hc
          rw [hc]
          rfl
        | some y =>
          simp only [WorkerRegistry.callsRemove, decide_eq_true_eq] at hc
          exact hi.old y x (by rw [hc]; rfl)
      · simp only at hguid
        split at hguid
        · by_cases hg : guid = s.workerGUID x
          · subst hg
            simp at hguid
          · rw [Function.update_of_ne hg] at hguid
            exact hg (hi.active guid x hguid).1.symm
        · rename_i hno
          have hg := (hi.active guid x hguid).1
          rw [hg] at hno
          exact hno hguid
    · exact Or.inl (hset w _ hx hw)
  | @leaveGroup w hr =>
    by_cases hw : x = w
    · subst hw
      exact Or.inl (by simp [hr])
    · exact Or.inl (hset w _ hx hw)
  | @removeEnd w hr =>
    by_cases hw : x = w
    · subst hw
      exact Or.inl (by simp [hr])
    · exact Or.inl (hset w _ hx hw)
  | syncMove =>
    left
    unfold WorkerRegistry.moveWorkerToGroup at hx
    split at hx <;> exact hx
  | connect | getActive | setActive | addFirst | addReplacing | oldRemoved | syncMissing | syncGet
  | getWorker => exact Or.inl hx

/-- The guid of a worker is written when it is built. -/
theorem guid_step (h : WorkerRegistry.step s e = some t) (hx : s.handler x ≠ .absent) :
    t.workerGUID x = s.workerGUID x := by
  cases WorkerRegistry.step_move h with
  | @connect w guid group hw =>
    have hne : x ≠ w := by
      rintro rfl
      exact hx hw
    exact Function.update_of_ne hne _ _
  | syncMove =>
    unfold WorkerRegistry.moveWorkerToGroup
    split <;> rfl
  | getActive | setActive | addFirst | addReplacing | oldRemoved | removeBegin | leaveGroup
  | removeEnd | syncMissing | syncGet | getWorker => rfl

theorem not_absent_of_past (hx : past (s.handler x) = true) : s.handler x ≠ .absent := by
  intro habsent
  rw [habsent] at hx
  cases hx

theorem known_step (hi : Known s) (h : WorkerRegistry.step s e = some t) : Known t := by
  constructor
  · intro guid x hx
    rcases active_step h hx with hold | ⟨old, hpc, hguid, rfl⟩
    · obtain ⟨hguid, hpast, hcalled⟩ := hi.active guid x hold
      refine ⟨by rw [guid_step h (not_absent_of_past hpast), hguid], past_step h hpast, ?_⟩
      by_contra hremoved
      rcases removal_step hi h hremoved with hremoved | ⟨-, hnone⟩
      · exact hremoved hcalled
      · exact hnone guid hx
    · have hne : s.handler x ≠ .absent := by simp [hpc]
      refine ⟨by rw [guid_step h hne, hguid], ?_, ?_⟩
      · cases WorkerRegistry.step_move h with
        | setActive hw => simp [WorkerRegistry.setHandler, past]
      · by_contra hremoved
        rcases removal_step hi h hremoved with hremoved | ⟨-, hnone⟩
        · have hpast := hi.removed x hremoved
          rw [hpc] at hpast
          cases hpast
        · exact hnone guid hx
  · exact fun x o ho => old_step hi h ho
  · intro x hx
    apply past_step h
    rcases removal_step hi h hx with hx | ⟨hpast, -⟩
    · exact hi.removed x hx
    · exact hpast

/-- A worker that was added and has not left is in the list of its group, unless that
is no group. -/
def Placed (s : WorkerRegistry.State) : Prop :=
  ∀ w, added (s.handler w) = true → ¬WorkerRegistry.left s w → s.groupName w ≠ "" →
    w ∈ members s.groups (s.groupName w)

theorem placed_initial : Placed WorkerRegistry.initial := by
  intro w hw
  cases hw

/-- Where neither the lists nor the names change, and nobody comes back. -/
theorem Placed.frame (hi : Placed s) (hgroups : ∀ g, members t.groups g = members s.groups g)
    (hnames : ∀ x, added (t.handler x) = true → t.groupName x = s.groupName x)
    (hadded : ∀ x, added (t.handler x) = true → added (s.handler x) = true)
    (hleft : ∀ x, ¬WorkerRegistry.left t x → ¬WorkerRegistry.left s x) : Placed t := by
  intro x hx hstays hname
  rw [hnames x hx] at hname ⊢
  rw [hgroups]
  exact hi x (hadded x hx) (hleft x hstays) hname

theorem added_update {pc : HandlerPc} (hpc : added pc = true → added (s.handler w) = true)
    (hx : added (Function.update s.handler w pc x) = true) : added (s.handler x) = true := by
  by_cases hw : x = w
  · subst hw
    rw [Function.update_self] at hx
    exact hpc hx
  · rwa [Function.update_of_ne hw] at hx

theorem mem_cutFrom_of_ne {gs : WorkerRegistry.Groups} {g : GroupName} (g' : GroupName)
    (hx : x ∈ members gs g) (hne : x ≠ w) : x ∈ members (WorkerRegistry.cutFrom gs g' w) g := by
  rw [WorkerRegistry.members_cutFrom]
  split
  · rename_i hg
    subst hg
    exact (List.mem_erase_of_ne hne).mpr hx
  · exact hx

/-- A worker is appended to the list of its group. -/
theorem Placed.add (hi : Placed s) (pc : HandlerPc) :
    Placed (WorkerRegistry.addWorkerToGroup (WorkerRegistry.setHandler s w pc) w) := by
  intro x hx hstays hname
  apply WorkerRegistry.mem_appendTo.mpr
  by_cases hw : x = w
  · subst hw
    exact Or.inr ⟨rfl, rfl⟩
  · left
    apply hi x _ hstays hname
    simp only [WorkerRegistry.addWorkerToGroup, WorkerRegistry.setHandler,
      Function.update_of_ne hw] at hx
    exact hx

theorem Placed.move (hi : Placed s) (group : GroupName) :
    Placed (WorkerRegistry.moveWorkerToGroup s w group) := by
  unfold WorkerRegistry.moveWorkerToGroup
  split
  · exact hi
  · intro x hx hstays hname
    simp only at hname ⊢
    by_cases hw : x = w
    · subst hw
      rw [Function.update_self] at hname ⊢
      rw [if_neg hname]
      exact WorkerRegistry.mem_appendTo.mpr (Or.inr ⟨rfl, rfl⟩)
    · rw [Function.update_of_ne hw] at hname ⊢
      have hcut := mem_cutFrom_of_ne (s.groupName w) (hi x hx hstays hname) hw
      split
      · exact hcut
      · exact WorkerRegistry.mem_appendTo.mpr (Or.inl hcut)

theorem placed_step (hi : Placed s) (h : WorkerRegistry.step s e = some t) : Placed t := by
  cases WorkerRegistry.step_move h with
  | @connect w guid group hw =>
    have hne : ∀ x, added (Function.update s.handler w .created x) = true → x ≠ w := by
      intro x hx
      rintro rfl
      rw [Function.update_self] at hx
      cases hx
    exact hi.frame (fun _ => rfl) (fun x hx => Function.update_of_ne (hne x hx) _ _)
      (fun x hx => added_update (by simp [added]) hx) (fun _ hx => hx)
  | getActive hw | setActive hw =>
    exact hi.frame (fun _ => rfl) (fun _ _ => rfl)
      (fun x hx => added_update (by simp [added]) hx) (fun _ hx => hx)
  | oldRemoved hw hr =>
    exact hi.frame (fun _ => rfl) (fun _ _ => rfl)
      (fun x hx => added_update (by simp [hw, added]) hx) (fun _ hx => hx)
  | addFirst hw | addReplacing hw => exact hi.add _
  | @removeBegin w caller hc hr =>
    refine hi.frame (fun _ => rfl) (fun _ _ => rfl) (fun _ hx => hx) fun x hx hl => ?_
    by_cases hw : x = w
    · subst hw
      simp [WorkerRegistry.left, hr] at hl
    · exact hx (by simpa [WorkerRegistry.left, WorkerRegistry.setRemoval, hw] using hl)
  | @removeEnd w hr =>
    refine hi.frame (fun _ => rfl) (fun _ _ => rfl) (fun _ hx => hx) fun x hx hl => ?_
    by_cases hw : x = w
    · subst hw
      exact hx (by simp [WorkerRegistry.left, WorkerRegistry.setRemoval])
    · exact hx (by simpa [WorkerRegistry.left, WorkerRegistry.setRemoval, hw] using hl)
  | @leaveGroup w hr =>
    intro x hx hstays hname
    have hne : x ≠ w := by
      rintro rfl
      exact hstays (by simp [WorkerRegistry.left, WorkerRegistry.removeWorkerFromGroup,
        WorkerRegistry.setRemoval])
    refine mem_cutFrom_of_ne _ (hi x hx (fun hl => hstays ?_) hname) hne
    simpa [WorkerRegistry.left, WorkerRegistry.removeWorkerFromGroup, WorkerRegistry.setRemoval,
      hne] using hl
  | syncMissing | syncGet =>
    exact hi.frame (fun _ => rfl) (fun _ _ => rfl) (fun _ hx => hx) (fun _ hx => hx)
  | syncMove hk => exact hi.move _
  | getWorker =>
    exact hi.frame (WorkerRegistry.members_getWorker s.groups _) (fun _ _ => rfl)
      (fun _ hx => hx) (fun _ hx => hx)

end Registry

/-! ## A pass over a table that stays -/

section Pass

variable {s t : State} {e : Event}

/-- What holds at every moment. -/
structure Sound (s : State) : Prop where
  seen : Seen s.registry
  known : Known s.registry
  placed : Placed s.registry
  /-- handlers ask before they connect -/
  asked : ∀ w, s.registry.handler w ≠ .absent → s.asked w ≠ none
  /-- the pass has one goroutine -/
  idle : s.pass = none → s.registry.sync 0 = .idle

/-- The step appends safely, as `WorkerRegistry.AppendsSafely` has it. -/
def AppendsSafely (s : State) : Event → Prop
  | .registry e => WorkerRegistry.AppendsSafely s.registry e
  | .move => WorkerRegistry.AppendsSafely s.registry (.syncMove 0)
  | _ => True

/-- The step of the registry that a step makes, if any. -/
def registryEvent (s : State) : Event → Option WorkerRegistry.Event
  | .registry e => some e
  | .next => s.pass.bind fun rows => rows.head?.map fun r => .syncGet 0 r.1 r.2
  | .move => some (.syncMove 0)
  | _ => none

theorem registry_step (h : step s e = some t) :
    registryEvent s e = none ∧ t.registry = s.registry ∨
      ∃ f, registryEvent s e = some f ∧ WorkerRegistry.step s.registry f = some t.registry := by
  cases e with
  | write table =>
    cases h
    exact Or.inl ⟨rfl, rfl⟩
  | ask w guid group =>
    simp only [step] at h
    split at h <;> cases h
    exact Or.inl ⟨rfl, rfl⟩
  | registry f =>
    simp only [step] at h
    split at h
    · obtain ⟨r, hr, rfl⟩ := Option.map_eq_some_iff.mp h
      exact Or.inr ⟨f, rfl, hr⟩
    · cases h
  | load rows =>
    simp only [step] at h
    split at h <;> cases h
    exact Or.inl ⟨rfl, rfl⟩
  | next =>
    simp only [step] at h
    split at h
    · rename_i guid group rows hpass
      obtain ⟨r, hr, rfl⟩ := Option.map_eq_some_iff.mp h
      exact Or.inr ⟨.syncGet 0 guid group, by simp [registryEvent, hpass], hr⟩
    · cases h
  | move =>
    obtain ⟨r, hr, rfl⟩ := Option.map_eq_some_iff.mp h
    exact Or.inr ⟨.syncMove 0, rfl, hr⟩
  | finish =>
    simp only [step] at h
    split at h <;> cases h
    exact Or.inl ⟨rfl, rfl⟩

/-- The state of the one syncing goroutine, as the steps of a pass change it. -/
theorem sync_step {r r' : WorkerRegistry.State} {f : WorkerRegistry.Event}
    (h : WorkerRegistry.step r f = some r') (hget : ∀ k guid group, f ≠ .syncGet k guid group)
    (hmove : ∀ k, f ≠ .syncMove k) : r'.sync = r.sync := by
  cases WorkerRegistry.step_move h with
  | syncMissing | syncGet => exact absurd rfl (hget _ _ _)
  | syncMove => exact absurd rfl (hmove _)
  | connect | getActive | setActive | addFirst | addReplacing | oldRemoved | removeBegin
  | leaveGroup | removeEnd | getWorker => rfl

theorem allowed_connect {w : WorkerId} {guid : Guid} {group : GroupName}
    (h : allowed s (.connect w guid group) = true) : s.asked w = some (guid, group) := by
  simpa [allowed] using h

theorem handler_born {r r' : WorkerRegistry.State} {f : WorkerRegistry.Event} {w : WorkerId}
    (h : WorkerRegistry.step r f = some r') (hw : r'.handler w ≠ .absent) :
    r.handler w ≠ .absent ∨ ∃ guid group, f = .connect w guid group := by
  have hset : ∀ x pc, Function.update r.handler x pc w ≠ .absent → r.handler x ≠ .absent →
      r.handler w ≠ .absent := by
    intro x pc hne hx
    by_cases hwx : w = x
    · rwa [hwx]
    · rwa [Function.update_of_ne hwx] at hne
  cases WorkerRegistry.step_move h with
  | @connect x guid group hx =>
    by_cases hwx : w = x
    · exact Or.inr ⟨guid, group, by rw [hwx]⟩
    · left
      simp only [WorkerRegistry.setHandler, Function.update_of_ne hwx] at hw
      exact hw
  | getActive hx | setActive hx | addFirst hx | addReplacing hx | oldRemoved hx =>
    exact Or.inl (hset _ _ hw (by simp [hx]))
  | removeBegin | leaveGroup | removeEnd | syncMissing | syncGet | getWorker => exact Or.inl hw
  | syncMove =>
    left
    unfold WorkerRegistry.moveWorkerToGroup at hw
    split at hw <;> exact hw

theorem asked_step {w : WorkerId} (h : step s e = some t) (hw : s.asked w ≠ none) :
    t.asked w = s.asked w := by
  cases e with
  | ask x guid group =>
    simp only [step] at h
    split at h
    · rename_i hask
      cases h
      have hne : w ≠ x := by
        rintro rfl
        exact hw hask.1
      exact Function.update_of_ne hne _ _
    · cases h
  | write table =>
    cases h
    rfl
  | registry f =>
    simp only [step] at h
    split at h
    · obtain ⟨r, -, rfl⟩ := Option.map_eq_some_iff.mp h
      rfl
    · cases h
  | load rows | finish =>
    simp only [step] at h
    split at h <;> cases h
    rfl
  | next =>
    simp only [step] at h
    split at h
    · obtain ⟨r, -, rfl⟩ := Option.map_eq_some_iff.mp h
      rfl
    · cases h
  | move =>
    obtain ⟨r, -, rfl⟩ := Option.map_eq_some_iff.mp h
    rfl

theorem sound_initial (table : Table) : Sound (initial table) where
  seen := WorkerRegistry.seen_initial
  known := known_initial
  placed := placed_initial
  asked := fun _ hw => absurd rfl hw
  idle := fun _ => rfl

/-- The connect of a step is by a handler that has asked. -/
theorem asked_of_connect {w : WorkerId} {guid : Guid} {group : GroupName}
    (h : step s e = some t) (he : registryEvent s e = some (.connect w guid group)) :
    s.asked w = some (guid, group) := by
  cases e with
  | registry f =>
    cases he
    simp only [step] at h
    split at h
    · rename_i hallowed
      exact allowed_connect hallowed
    · cases h
  | next =>
    simp only [registryEvent, Option.bind_eq_some_iff, Option.map_eq_some_iff] at he
    obtain ⟨rows, -, r, -, he⟩ := he
    cases he
  | write | ask | load | move | finish => cases he

theorem idle_step (hi : s.pass = none → s.registry.sync 0 = .idle) (h : step s e = some t)
    (hpass : t.pass = none) : t.registry.sync 0 = .idle := by
  cases e with
  | write table =>
    cases h
    exact hi hpass
  | ask w guid group =>
    simp only [step] at h
    split at h <;> cases h
    exact hi hpass
  | registry f =>
    simp only [step] at h
    split at h
    · rename_i hallowed
      obtain ⟨r, hr, rfl⟩ := Option.map_eq_some_iff.mp h
      rw [sync_step hr]
      · exact hi hpass
      · rintro k guid group rfl
        cases hallowed
      · rintro k rfl
        cases hallowed
    · cases h
  | load rows =>
    simp only [step] at h
    split at h <;> cases h
    cases hpass
  | next =>
    simp only [step] at h
    split at h
    · obtain ⟨r, -, rfl⟩ := Option.map_eq_some_iff.mp h
      cases hpass
    · cases h
  | move =>
    obtain ⟨r, hr, rfl⟩ := Option.map_eq_some_iff.mp h
    cases WorkerRegistry.step_move hr with
    | syncMove hk => simp
  | finish =>
    simp only [step] at h
    split at h
    · rename_i hdone
      cases h
      exact hdone.2
    · cases h

theorem sound_step (hi : Sound s) (h : step s e = some t) : Sound t := by
  have hkept : ∀ w, s.asked w ≠ none → t.asked w ≠ none := fun w hw => by rwa [asked_step h hw]
  have hidle := fun hpass => idle_step hi.idle h hpass
  rcases registry_step h with ⟨-, hsame⟩ | ⟨f, hf, hr⟩
  · refine ⟨?_, ?_, ?_, fun w hw => hkept w (hi.asked w ?_), hidle⟩
    · rw [hsame]
      exact hi.seen
    · rw [hsame]
      exact hi.known
    · rw [hsame]
      exact hi.placed
    · rwa [hsame] at hw
  · refine ⟨WorkerRegistry.seen_step hi.seen hr, known_step hi.known hr, placed_step hi.placed hr,
      fun w hw => hkept w ?_, hidle⟩
    rcases handler_born hr hw with hborn | ⟨guid, group, rfl⟩
    · exact hi.asked w hborn
    · rw [asked_of_connect h hf]
      simp

/-- The worker is in the group of its row, if it has one. -/
def Current (table : Table) (r : WorkerRegistry.State) (w : WorkerId) : Prop :=
  ∀ group, (r.workerGUID w, group) ∈ table.rows → r.groupName w = group

theorem Table.unique (table : Table) {guid : Guid} {g g' : GroupName}
    (hg : (guid, g) ∈ table.rows) (hg' : (guid, g') ∈ table.rows) : g = g' :=
  (Prod.mk.inj (List.inj_on_of_nodup_map table.distinct hg hg' rfl)).2

theorem moveWorkerToGroup_names (r : WorkerRegistry.State) (w x : WorkerId) (group : GroupName) :
    (WorkerRegistry.moveWorkerToGroup r w group).groupName x =
        (if x = w then group else r.groupName x) ∧
      (WorkerRegistry.moveWorkerToGroup r w group).workerGUID x = r.workerGUID x := by
  unfold WorkerRegistry.moveWorkerToGroup
  split
  · rename_i hsame
    split
    · rename_i hx
      exact ⟨by rw [hx, hsame], rfl⟩
    · exact ⟨rfl, rfl⟩
  · exact ⟨Function.update_apply _ _ _ _, rfl⟩

/-- A move by the row of the worker makes it current, and nothing else makes a worker
less so. -/
theorem current_step {table : Table} {r r' : WorkerRegistry.State} {f : WorkerRegistry.Event}
    {w : WorkerId} (h : WorkerRegistry.step r f = some r') (hw : r.handler w ≠ .absent)
    (hmoving : ∀ k x group, f = .syncMove k → r.sync k = .moving x group →
      (r.workerGUID x, group) ∈ table.rows)
    (hi : Current table r w ∨ ∃ k group, f = .syncMove k ∧ r.sync k = .moving w group) :
    Current table r' w := by
  intro group hrow
  by_cases hmove : ∃ k, f = .syncMove k
  · obtain ⟨k, rfl⟩ := hmove
    cases WorkerRegistry.step_move h with
    | @syncMove k x group' hk =>
      obtain ⟨hname, hguid⟩ := moveWorkerToGroup_names r x w group'
      simp only at hrow ⊢
      rw [hguid] at hrow
      rw [hname]
      split
      · rename_i hx
        rw [hx] at hrow
        exact table.unique (hmoving k x group' rfl hk) hrow
      · rename_i hne
        rcases hi with hi | ⟨k', group'', hk', hmine⟩
        · exact hi group hrow
        · cases hk'
          rw [hk] at hmine
          cases hmine
          exact absurd rfl hne
  · have hguid := guid_step h hw
    rw [hguid] at hrow
    have hcurrent : Current table r w := by
      rcases hi with hi | ⟨k, -, hk, -⟩
      · exact hi
      · exact absurd ⟨k, hk⟩ hmove
    by_cases hconnect : ∃ x guid group, f = .connect x guid group
    · obtain ⟨x, guid, group', rfl⟩ := hconnect
      cases WorkerRegistry.step_move h with
      | connect hx =>
        have hne : w ≠ x := by
          rintro rfl
          exact hw hx
        simp only [Function.update_of_ne hne]
        exact hcurrent group hrow
    · rw [(names_step h (fun x guid group' hf => hconnect ⟨x, guid, group', hf⟩)
        (fun k hf => hmove ⟨k, hf⟩)).1]
      exact hcurrent group hrow

/-- The table stays; `W` are workers that are active when a pass begins, and `F`
workers whose handlers have not asked by then. -/
structure Era (table : Table) (W F : WorkerId → Prop) (s : State) : Prop where
  stays : s.table = table
  rows : ∀ rows, s.pass = some rows → ∀ r ∈ rows, r ∈ table.rows
  moving : ∀ w group, s.registry.sync 0 = .moving w group →
    (s.registry.workerGUID w, group) ∈ table.rows
  past : ∀ w, W w → past (s.registry.handler w) = true
  settled : ∀ w, W w → ∀ guid, s.registry.activeWorkers guid = some w →
    Current table s.registry w ∨ (∃ rows group, s.pass = some rows ∧ (guid, group) ∈ rows) ∨
      ∃ group, s.registry.sync 0 = .moving w group
  answered : ∀ w, F w → ∀ r, s.asked w = some r → r ∈ table.rows
  fresh : ∀ w, F w → s.registry.handler w ≠ .absent → Current table s.registry w

variable {table : Table} {W F : WorkerId → Prop}

theorem Era.current (hi : Era table W F s) {w : WorkerId} {guid : Guid} (hw : W w)
    (hpass : s.pass = none) (hidle : s.registry.sync 0 = .idle)
    (hactive : s.registry.activeWorkers guid = some w) : Current table s.registry w := by
  rcases hi.settled w hw guid hactive with hcurrent | ⟨rows, group, hrows, -⟩ | ⟨group, hmoving⟩
  · exact hcurrent
  · rw [hpass] at hrows
    cases hrows
  · rw [hidle] at hmoving
    cases hmoving

/-- A worker of `W` that is active now was active before. -/
theorem Era.active (hi : Era table W F s) {f : WorkerRegistry.Event} {r : WorkerRegistry.State}
    (h : WorkerRegistry.step s.registry f = some r) {w : WorkerId} {guid : Guid} (hw : W w)
    (hactive : r.activeWorkers guid = some w) : s.registry.activeWorkers guid = some w := by
  rcases active_step h hactive with hold | ⟨old, hpc, -, -⟩
  · exact hold
  · have hpast := hi.past w hw
    rw [hpc] at hpast
    cases hpast

theorem era_registry {f : WorkerRegistry.Event} (hs : Sound s) (hi : Era table W F s)
    (h : step s (.registry f) = some t) : Era table W F t := by
  simp only [step] at h
  split at h
  · rename_i hallowed
    obtain ⟨r, hr, rfl⟩ := Option.map_eq_some_iff.mp h
    have hmove : ∀ k, f ≠ .syncMove k := by
      rintro k rfl
      cases hallowed
    have hsync : r.sync = s.registry.sync := by
      refine sync_step hr ?_ hmove
      rintro k guid group rfl
      cases hallowed
    have hcurrent : ∀ w, s.registry.handler w ≠ .absent → Current table s.registry w →
        Current table r w := fun w hw hc =>
      current_step hr hw (fun k x group hf => absurd hf (hmove k)) (Or.inl hc)
    constructor
    · exact hi.stays
    · exact hi.rows
    · intro w group hw
      simp only [hsync] at hw
      rw [guid_step hr (hs.seen.sync 0 w group hw)]
      exact hi.moving w group hw
    · exact fun w hw => past_step hr (hi.past w hw)
    · intro w hw guid hactive
      rw [hsync]
      rcases hi.settled w hw guid (hi.active hr hw hactive) with hc | hrest
      · exact Or.inl (hcurrent w (not_absent_of_past (hi.past w hw)) hc)
      · exact Or.inr hrest
    · exact hi.answered
    · intro w hw hne
      rcases handler_born hr hne with hborn | ⟨guid, group, rfl⟩
      · exact hcurrent w hborn (hi.fresh w hw hborn)
      · have hrow := hi.answered w hw _ (allowed_connect hallowed)
        intro group' hrow'
        cases WorkerRegistry.step_move hr with
        | connect habsent =>
          simp only [Function.update_self] at hrow' ⊢
          exact table.unique hrow hrow'
  · cases h

theorem era_next (hs : Sound s) (hi : Era table W F s) (h : step s .next = some t) :
    Era table W F t := by
  simp only [step] at h
  split at h
  · rename_i guid group rows hpass
    obtain ⟨r, hr, rfl⟩ := Option.map_eq_some_iff.mp h
    have hrow := hi.rows _ hpass
    have hcurrent : ∀ w, s.registry.handler w ≠ .absent → Current table s.registry w →
        Current table r w := fun w hw hc =>
      current_step hr hw (by simp) (Or.inl hc)
    have hsettled : ∀ w, W w → ∀ guid', s.registry.activeWorkers guid' = some w →
        Current table s.registry w ∨ guid' = guid ∨ ∃ group', (guid', group') ∈ rows := by
      intro w hw guid' hactive
      rcases hi.settled w hw guid' hactive with hc | ⟨rows', group', hrows', hmem⟩ | ⟨group', hm⟩
      · exact Or.inl hc
      · rw [hpass] at hrows'
        cases hrows'
        rcases List.mem_cons.mp hmem with heq | hmem
        · exact Or.inr (Or.inl (Prod.mk.inj heq).1)
        · exact Or.inr (Or.inr ⟨group', hmem⟩)
      · simp only [WorkerRegistry.step, hm, reduceCtorEq, if_false] at hr
    have hrest : ∀ x ∈ rows, x ∈ table.rows := fun x hx => hrow x (List.mem_cons_of_mem _ hx)
    cases WorkerRegistry.step_move hr with
    | syncMissing hk hnone =>
      refine ⟨hi.stays, ?_, hi.moving, hi.past, fun w hw guid' hactive => ?_, hi.answered, hi.fresh⟩
      · rintro rows' ⟨⟩
        exact hrest
      · rcases hsettled w hw guid' hactive with hc | rfl | ⟨group', hmem⟩
        · exact Or.inl hc
        · rw [hnone] at hactive
          cases hactive
        · exact Or.inr (Or.inl ⟨rows, group', rfl, hmem⟩)
    | @syncGet k guid group w₀ hk hw₀ =>
      have hguid := (hs.known.active guid w₀ hw₀).1
      refine ⟨hi.stays, ?_, ?_, hi.past, fun w hw guid' hactive => ?_, hi.answered,
        fun w hw hne => hcurrent w hne (hi.fresh w hw hne)⟩
      · rintro rows' ⟨⟩
        exact hrest
      · intro w group' hmoving
        simp only [Function.update_self, WorkerRegistry.SyncPc.moving.injEq] at hmoving
        rw [← hmoving.1, ← hmoving.2, hguid]
        exact hrow _ List.mem_cons_self
      · rcases hsettled w hw guid' hactive with hc | rfl | ⟨group', hmem⟩
        · exact Or.inl (hcurrent w (not_absent_of_past (hi.past w hw)) hc)
        · rw [hw₀] at hactive
          cases hactive
          exact Or.inr (Or.inr ⟨group, by simp⟩)
        · exact Or.inr (Or.inl ⟨rows, group', rfl, hmem⟩)
  · cases h

theorem era_move (hi : Era table W F s) (h : step s .move = some t) : Era table W F t := by
  obtain ⟨r, hr, rfl⟩ := Option.map_eq_some_iff.mp h
  have hmoving : ∀ k x group, WorkerRegistry.Event.syncMove 0 = .syncMove k →
      s.registry.sync k = .moving x group → (s.registry.workerGUID x, group) ∈ table.rows := by
    rintro k x group ⟨⟩ hk
    exact hi.moving x group hk
  have hidle : r.sync 0 = .idle := by
    cases WorkerRegistry.step_move hr with
    | syncMove hk => simp
  constructor
  · exact hi.stays
  · exact hi.rows
  · intro w group hw
    simp only [hidle] at hw
    cases hw
  · exact fun w hw => past_step hr (hi.past w hw)
  · intro w hw guid hactive
    have hne := not_absent_of_past (hi.past w hw)
    rcases hi.settled w hw guid (hi.active hr hw hactive) with hc | hrows | ⟨group, hmine⟩
    · exact Or.inl (current_step hr hne hmoving (Or.inl hc))
    · exact Or.inr (Or.inl hrows)
    · exact Or.inl (current_step hr hne hmoving (Or.inr ⟨0, group, rfl, hmine⟩))
  · exact hi.answered
  · intro w hw hne
    rcases handler_born hr hne with hborn | ⟨guid, group, hf⟩
    · exact current_step hr hborn hmoving (Or.inl (hi.fresh w hw hborn))
    · cases hf

theorem era_step (hs : Sound s) (hi : Era table W F s) (hquiet : ∀ table', e ≠ .write table')
    (h : step s e = some t) : Era table W F t := by
  cases e with
  | write table' => exact absurd rfl (hquiet table')
  | registry f => exact era_registry hs hi h
  | next => exact era_next hs hi h
  | move => exact era_move hi h
  | ask w guid group =>
    simp only [step] at h
    split at h
    · rename_i hask
      cases h
      refine ⟨hi.stays, hi.rows, hi.moving, hi.past, hi.settled, fun x hx r hr => ?_, hi.fresh⟩
      by_cases hw : x = w
      · subst hw
        simp only [Function.update_self, Option.some.injEq] at hr
        rw [← hr, ← hi.stays]
        exact hask.2
      · simp only [Function.update_of_ne hw] at hr
        exact hi.answered x hx r hr
    · cases h
  | load rows =>
    simp only [step] at h
    split at h
    · rename_i hload
      cases h
      refine ⟨hi.stays, ?_, hi.moving, hi.past, fun w hw guid hactive => ?_, hi.answered, hi.fresh⟩
      · rintro rows' ⟨⟩ r hr
        rw [← hi.stays]
        exact hload.2.mem_iff.mp hr
      · exact Or.inl (hi.current hw hload.1 (hs.idle hload.1) hactive)
    · cases h
  | finish =>
    simp only [step] at h
    split at h
    · rename_i hdone
      cases h
      refine ⟨hi.stays, by simp, hi.moving, hi.past, fun w hw guid hactive => ?_, hi.answered,
        hi.fresh⟩
      rcases hi.settled w hw guid hactive with hc | ⟨rows, group, hrows, hmem⟩ | hm
      · exact Or.inl hc
      · rw [hdone.1] at hrows
        cases hrows
        cases hmem
      · exact Or.inr (Or.inr hm)
    · cases h

/-- The moment a pass has loaded the table. -/
theorem era_load {rows : List (Guid × GroupName)} (hs : Sound s) (h : step s (.load rows) = some t) :
    Era s.table (fun w => ∃ guid, s.registry.activeWorkers guid = some w)
      (fun w => s.asked w = none) t := by
  simp only [step] at h
  split at h
  · rename_i hload
    cases h
    constructor
    · rfl
    · rintro rows' ⟨⟩ r hr
      exact hload.2.mem_iff.mp hr
    · intro w group hw
      rw [hs.idle hload.1] at hw
      cases hw
    · rintro w ⟨guid, hw⟩
      exact (hs.known.active guid w hw).2.1
    · rintro w - guid hactive
      have hguid := (hs.known.active guid w hactive).1
      by_cases hrow : ∃ group, (guid, group) ∈ s.table.rows
      · obtain ⟨group, hrow⟩ := hrow
        exact Or.inr (Or.inl ⟨rows, group, rfl, hload.2.mem_iff.mpr hrow⟩)
      · left
        intro group hg
        rw [hguid] at hg
        exact absurd ⟨group, hg⟩ hrow
    · intro w hw r hr
      rw [hw] at hr
      cases hr
    · intro w hw hne
      exact absurd hw (hs.asked w hne)
  · cases h

theorem lists_step (hs : Sound s) (hl : Lists s.registry) (hC : AppendsSafely s e)
    (h : step s e = some t) : Lists t.registry := by
  rcases registry_step h with ⟨-, hsame⟩ | ⟨f, hf, hr⟩
  · rw [hsame]
    exact hl
  · refine WorkerRegistry.lists_step hs.seen hl ?_ hr
    cases e with
    | registry f' =>
      cases hf
      exact hC
    | move =>
      cases hf
      exact hC
    | next =>
      simp only [registryEvent, Option.bind_eq_some_iff, Option.map_eq_some_iff] at hf
      obtain ⟨rows, -, r, -, rfl⟩ := hf
      trivial
    | write | ask | load | finish => cases hf

end Pass

/-- When nobody writes the table, a pass that is over has put every worker into the
group of its row and into its list: the workers that were active when it began, and
those whose handlers had not asked by then. Where the appends were safe, it is in no
other list. -/
theorem sync_converges {table : Table} {es fs : List Event} {rows : List (Guid × GroupName)}
    {s t : State} {w : WorkerId} {guid : Guid} {group : GroupName}
    (hs : run step (initial table) es = some s) (ht : run step s (.load rows :: fs) = some t)
    (hquiet : ∀ e ∈ fs, ∀ table', e ≠ .write table') (hdone : t.pass = none)
    (hrow : (guid, group) ∈ s.table.rows)
    (hjoined : s.registry.activeWorkers guid = some w ∨ s.asked w = none)
    (hactive : t.registry.activeWorkers guid = some w) (hrunning : t.registry.handler w = .running) :
    t.registry.groupName w = group ∧ (group ≠ "" → w ∈ members t.registry.groups group) ∧
      (Meets step AppendsSafely (initial table) (es ++ .load rows :: fs) →
        ∀ g, w ∈ members t.registry.groups g → g = group) := by
  have hsound : Sound s := run_preserves (fun _ _ _ => sound_step) (sound_initial table) hs
  obtain ⟨m, hm, hrun⟩ := run_cons_some ht
  obtain ⟨ht', hera⟩ : Sound t ∧ Era s.table (fun w => ∃ guid, s.registry.activeWorkers guid = some w)
      (fun w => s.asked w = none) t := by
    refine run_invariant (C := fun _ e => ∀ table', e ≠ .write table')
      (I := fun a => Sound a ∧ Era s.table _ _ a)
      (fun a e b hi hC hab => ⟨sound_step hi.1 hab, era_step hi.1 hi.2 hC hab⟩)
      ⟨sound_step hsound hm, era_load hsound hm⟩ (meets_of_mem fun e he _ => hquiet e he) hrun
  obtain ⟨hguid, hpast, hcalled⟩ := ht'.known.active guid w hactive
  have hcurrent : Current s.table t.registry w := by
    rcases hjoined with hjoined | hjoined
    · exact hera.current ⟨guid, hjoined⟩ hdone (ht'.idle hdone) hactive
    · exact hera.fresh w hjoined (by simp [hrunning])
  have hname : t.registry.groupName w = group := hcurrent group (by rw [hguid]; exact hrow)
  refine ⟨hname, fun hgroup => ?_, fun hsafe g hmem => ?_⟩
  · have hstays : ¬WorkerRegistry.left t.registry w := by
      rintro (hl | hl) <;> rw [hcalled] at hl <;> cases hl
    have hmem := ht'.placed w (by simp [hrunning, added]) hstays (by rwa [hname])
    rwa [hname] at hmem
  · have hlists : Lists t.registry := by
      refine (run_invariant (I := fun a => Sound a ∧ Lists a.registry)
        (fun a e b hi hC hab => ⟨sound_step hi.1 hab, lists_step hi.1 hi.2 hC hab⟩)
        ⟨sound_initial table, WorkerRegistry.lists_initial⟩ hsafe (run_join hs ht)).2
    rw [← hlists.ownGroup g w hmem, hname]

/-- A worker without a group connects, the table gives it one, and a pass is made. -/
def assigned : List Event :=
  [.ask 0 "a" "", .registry (.connect 0 "a" ""), .registry (.getActive 0), .registry (.setActive 0),
    .registry (.addToGroup 0), .write ⟨[("a", "g")], by decide⟩]

def assigning : List Event := [.next, .move, .finish]

theorem sync_converges_assigned : ∃ s t,
    run step (initial ⟨[("a", "")], by decide⟩) assigned = some s ∧
      run step s (.load [("a", "g")] :: assigning) = some t ∧ t.registry.groupName 0 = "g" ∧
      0 ∈ members t.registry.groups "g" := by
  obtain ⟨s, hs, hrow, hjoined, t, ht, hdone, hactive, hrunning⟩ : ∃ s,
      run step (initial ⟨[("a", "")], by decide⟩) assigned = some s ∧ ("a", "g") ∈ s.table.rows ∧
      s.registry.activeWorkers "a" = some 0 ∧ ∃ t,
      run step s (.load [("a", "g")] :: assigning) = some t ∧ t.pass = none ∧
      t.registry.activeWorkers "a" = some 0 ∧ t.registry.handler 0 = .running :=
    ⟨_, rfl, List.mem_cons_self, rfl, _, rfl, rfl, rfl, rfl⟩
  obtain ⟨hname, hlisted, -⟩ := sync_converges hs ht (by simp [assigning]) hdone hrow
    (Or.inl hjoined) hactive hrunning
  exact ⟨s, t, hs, ht, hname, hlisted (by simp)⟩

end SplitProxy.GroupSync
