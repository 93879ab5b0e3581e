import SplitProxy.WorkerRegistry

/-!
# The online flag of a worker

`registerWorker` sets the flag before a worker is active, `removeWorker` clears it
after the worker has stopped being active. Every statement is one step beside the
steps of the registry.
-/
namespace SplitProxy.WorkerOnline

open Runs WorkerRegistry

/-- The registry with `core_worker.online`, and what the calls still have to write. -/
structure State where
  registry : WorkerRegistry.State
  /-- the rows of `core_worker`, by GUID -/
  online : Guid → Option Bool
  /-- handlers past `registerWorker`, with the GUID of the hello -/
  registered : WorkerId → Option Guid
  /-- `removeWorker` calls that found their worker active and have not written yet -/
  due : WorkerId → Bool

/-- A broker starts with the rows that are in the table. -/
def initial (rows : Guid → Option Bool) : State :=
  ⟨WorkerRegistry.initial, rows, fun _ => none, fun _ => false⟩

inductive Event where
  | registerWorker (w : WorkerId) (guid : Guid)
  | registry (e : WorkerRegistry.Event)
  | markOffline (w : WorkerId)
  deriving DecidableEq, Repr

/-- A worker is built for the registered GUID, and `removeWorker` ends after its write. -/
def allowed (s : State) : WorkerRegistry.Event → Bool
  | .connect w guid _ => s.registered w = some guid
  | .removeEnd w => s.due w = false
  | _ => true

/-- The local variable `active` of `removeWorker`. -/
def dueAfter (s : State) : WorkerRegistry.Event → WorkerId → Bool
  | .removeBegin w _ =>
    Function.update s.due w (s.registry.activeWorkers (s.registry.workerGUID w) = some w)
  | _ => s.due

def step (s : State) : Event → Option State
  | .registerWorker w guid =>
    if s.registry.handler w = .absent ∧ s.registered w = none then
      some { s with
        online := Function.update s.online guid (some true)
        registered := Function.update s.registered w (some guid) }
    else none
  | .registry e =>
    if allowed s e then
      (WorkerRegistry.step s.registry e).map fun r => { s with registry := r, due := dueAfter s e }
    else none
  | .markOffline w =>
    if s.registry.removal w = .groupLeft ∧ s.due w = true then
      let guid := s.registry.workerGUID w
      some { s with
        online := Function.update s.online guid ((s.online guid).map fun _ => false)
        due := Function.update s.due w false }
    else none

/-- No `workerHandler` and no `removeWorker` is in progress. -/
def Quiescent (s : State) : Prop :=
  (∀ w, s.registered w = none ∨ s.registry.handler w = .running) ∧
    ∀ w, s.registry.removal w = .notCalled ∨ s.registry.removal w = .finished

/-- A worker with the GUID has connected to this broker. -/
def Connected (s : State) (guid : Guid) : Prop :=
  ∃ w, s.registered w = some guid

/-- For every GUID that has connected, the flag says whether a worker is active. -/
def Agrees (s : State) : Prop :=
  ∀ guid, Connected s guid →
    (s.online guid = some true ↔ (s.registry.activeWorkers guid).isSome = true)

/-- A handler between `registerWorker` and `setActiveWorker`. -/
def Coming (s : State) (guid : Guid) (w : WorkerId) : Prop :=
  s.registered w = some guid ∧
    (s.registry.handler w = .absent ∨ s.registry.handler w = .created ∨
      ∃ old, s.registry.handler w = .gotActive old)

/-- When a removal clears the flag, no worker of the GUID is active or about to be. -/
def ClearsAlone (s : State) : Event → Prop
  | .markOffline w =>
    s.registry.activeWorkers (s.registry.workerGUID w) = none ∧
      ∀ x, ¬Coming s (s.registry.workerGUID w) x
  | _ => True

variable {s t : State} {e : Event}

/-- Why a flag is set, or will be cleared. -/
structure Tracked (s : State) : Prop where
  guid : ∀ w, s.registry.handler w ≠ .absent → s.registered w = some (s.registry.workerGUID w)
  due : ∀ w, s.due w = true → s.registry.handler w ≠ .absent ∧
    s.registry.removal w ≠ .notCalled ∧ s.registry.removal w ≠ .finished
  reason : ∀ guid, Connected s guid → s.online guid = some true →
    (s.registry.activeWorkers guid).isSome = true ∨ (∃ w, Coming s guid w) ∨
      ∃ w, s.due w = true ∧ s.registry.workerGUID w = guid
  active : ∀ guid w, s.registry.activeWorkers guid = some w → s.online guid = some true
  coming : ∀ guid w, Coming s guid w → s.online guid = some true

theorem tracked_initial (rows : Guid → Option Bool) : Tracked (initial rows) := by
  refine ⟨fun w h => absurd rfl h, ?_, ?_, ?_, ?_⟩
  · intro w h
    cases h
  · intro guid hc
    obtain ⟨w, hw⟩ := hc
    cases hw
  · intro guid w h
    cases h
  · intro guid w h
    cases h.1

/-- Only a new handler, and no removal, starts with `registerWorker`. -/
theorem tracked_register {w : WorkerId} {guid : Guid} (hs : Tracked s)
    (h : step s (.registerWorker w guid) = some t) : Tracked t := by
  simp only [step] at h
  split at h
  · rename_i hw
    cases h
    have hne : ∀ x, s.registered x ≠ none → x ≠ w := by
      rintro x hx rfl
      exact hx hw.2
    have hcoming : ∀ g x, Coming s g x → x ≠ w :=
      fun g x hx => hne x (by rw [hx.1]; exact Option.some_ne_none g)
    have honline : ∀ g, s.online g = some true →
        Function.update s.online guid (some true) g = some true := by
      intro g hg
      by_cases he : g = guid
      · rw [he, Function.update_self]
      · rw [Function.update_of_ne he, hg]
    refine ⟨fun x hx => ?_, hs.due, fun g hk hg => ?_, fun g x hx => ?_, fun g x hx => ?_⟩
    · have hxw : x ≠ w := by
        rintro rfl
        exact hx hw.1
      exact (Function.update_of_ne hxw _ _).trans (hs.guid x hx)
    · by_cases he : g = guid
      · refine Or.inr (Or.inl ⟨w, ?_, Or.inl hw.1⟩)
        rw [he]
        exact Function.update_self w _ _
      · have hg' : s.online g = some true := (Function.update_of_ne he _ _).symm.trans hg
        have hk' : Connected s g := by
          obtain ⟨x, hx⟩ := hk
          have hxw : x ≠ w := by
            rintro rfl
            simp only [Function.update_self, Option.some.injEq] at hx
            exact he hx.symm
          exact ⟨x, (Function.update_of_ne hxw _ _).symm.trans hx⟩
        rcases hs.reason g hk' hg' with ha | ⟨x, hx⟩ | hd
        · exact Or.inl ha
        · exact Or.inr (Or.inl ⟨x, (Function.update_of_ne (hcoming g x hx) _ _).trans hx.1, hx.2⟩)
        · exact Or.inr (Or.inr hd)
    · exact honline g (hs.active g x hx)
    · by_cases he : g = guid
      · rw [he]
        exact Function.update_self guid _ _
      · have hxw : x ≠ w := by
          rintro rfl
          have h1 := hx.1
          simp only [Function.update_self, Option.some.injEq] at h1
          exact he h1.symm
        refine honline g (hs.coming g x ⟨?_, hx.2⟩)
        exact (Function.update_of_ne hxw _ _).symm.trans hx.1
  · cases h

theorem tracked_markOffline {w : WorkerId} (hs : Tracked s) (hc : ClearsAlone s (.markOffline w))
    (h : step s (.markOffline w) = some t) : Tracked t := by
  obtain ⟨hactive, hnone⟩ := hc
  simp only [step] at h
  split at h
  · cases h
    have hdue : ∀ x, Function.update s.due w false x = true → x ≠ w ∧ s.due x = true := by
      intro x hx
      by_cases he : x = w
      · rw [he, Function.update_self] at hx
        cases hx
      · rw [Function.update_of_ne he] at hx
        exact ⟨he, hx⟩
    have hother : ∀ g, g ≠ s.registry.workerGUID w →
        Function.update s.online (s.registry.workerGUID w)
          ((s.online (s.registry.workerGUID w)).map fun _ => false) g = s.online g :=
      fun g hg => Function.update_of_ne hg _ _
    refine ⟨hs.guid, fun x hx => hs.due x (hdue x hx).2, fun g hk hg => ?_, fun g x hx => ?_,
      fun g x hx => ?_⟩
    · have hgw : g ≠ s.registry.workerGUID w := by
        rintro rfl
        simp only [Function.update_self] at hg
        obtain ⟨_, -, hf⟩ := Option.map_eq_some_iff.mp hg
        cases hf
      rcases hs.reason g hk ((hother g hgw).symm.trans hg) with ha | hcm | ⟨x, hx, hxg⟩
      · exact Or.inl ha
      · exact Or.inr (Or.inl hcm)
      · have hxw : x ≠ w := by
          rintro rfl
          exact hgw hxg.symm
        exact Or.inr (Or.inr ⟨x, (Function.update_of_ne hxw _ _).trans hx, hxg⟩)
    · have hgw : g ≠ s.registry.workerGUID w := by
        rintro rfl
        simp only [hactive] at hx
        cases hx
      exact (hother g hgw).trans (hs.active g x hx)
    · have hgw : g ≠ s.registry.workerGUID w := by
        rintro rfl
        exact hnone x hx
      exact (hother g hgw).trans (hs.coming g x hx)
  · cases h

/-- A step that leaves the active workers, the GUIDs and the handlers on their way alone. -/
theorem tracked_frame {r : WorkerRegistry.State} (hs : Tracked s)
    (hguid : r.workerGUID = s.registry.workerGUID)
    (hactive : r.activeWorkers = s.registry.activeWorkers)
    (habsent : ∀ w, r.handler w = .absent ↔ s.registry.handler w = .absent)
    (hcoming : ∀ g w, Coming { s with registry := r } g w ↔ Coming s g w)
    (hremoval : ∀ w, s.due w = true → r.removal w ≠ .notCalled ∧ r.removal w ≠ .finished) :
    Tracked { s with registry := r } := by
  refine ⟨fun w hw => ?_, fun w hw => ?_, fun g hk hg => ?_, fun g w hw => ?_, fun g w hw => ?_⟩
  · have hg := hs.guid w (fun h => hw ((habsent w).mpr h))
    simpa only [hguid] using hg
  · have hd := (hs.due w hw).1
    exact ⟨fun h => hd ((habsent w).mp h), hremoval w hw⟩
  · rcases hs.reason g hk hg with ha | ⟨w, hw⟩ | ⟨w, hw, hwg⟩
    · left
      simpa only [hactive] using ha
    · exact Or.inr (Or.inl ⟨w, (hcoming g w).mpr hw⟩)
    · refine Or.inr (Or.inr ⟨w, hw, ?_⟩)
      simpa only [hguid] using hwg
  · simp only [hactive] at hw
    exact hs.active g w hw
  · exact hs.coming g w ((hcoming g w).mp hw)

/-- A worker that becomes active was on its way before. -/
theorem tracked_setActive {w : WorkerId} {old : Option WorkerId} (hs : Tracked s)
    (hw : s.registry.handler w = .gotActive old) :
    Tracked { s with registry := { setHandler s.registry w (.activeSet old) with
      activeWorkers := Function.update s.registry.activeWorkers (s.registry.workerGUID w)
        (some w) } } := by
  have hreg : s.registered w = some (s.registry.workerGUID w) := hs.guid w (by simp [hw])
  have hcw : Coming s (s.registry.workerGUID w) w := ⟨hreg, Or.inr (Or.inr ⟨old, hw⟩)⟩
  have hother : ∀ x, x ≠ w →
      Function.update s.registry.handler w (.activeSet old) x = s.registry.handler x :=
    fun x hx => Function.update_of_ne hx _ _
  refine ⟨fun x hx => ?_, fun x hx => ?_, fun g hk hg => ?_, fun g x hx => ?_, fun g x hx => ?_⟩
  · by_cases he : x = w
    · rw [he]
      exact hreg
    · exact hs.guid x (fun h => hx ((hother x he).trans h))
  · refine ⟨fun h => ?_, (hs.due x hx).2⟩
    by_cases he : x = w
    · simp [setHandler, he] at h
    · exact (hs.due x hx).1 ((hother x he).symm.trans h)
  · by_cases hgw : g = s.registry.workerGUID w
    · left
      simp [hgw]
    · rcases hs.reason g hk hg with ha | ⟨x, hx⟩ | hd
      · left
        simpa only [Function.update_of_ne hgw] using ha
      · have hxw : x ≠ w := by
          rintro rfl
          exact hgw (Option.some.inj (hx.1.symm.trans hreg))
        refine Or.inr (Or.inl ⟨x, hx.1, ?_⟩)
        simpa only [setHandler, hother x hxw] using hx.2
      · exact Or.inr (Or.inr hd)
  · by_cases hgw : g = s.registry.workerGUID w
    · rw [hgw]
      exact hs.coming _ w hcw
    · simp only [Function.update_of_ne hgw] at hx
      exact hs.active g x hx
  · have hxw : x ≠ w := by
      rintro rfl
      have h2 := hx.2
      simp [setHandler] at h2
    refine hs.coming g x ⟨hx.1, ?_⟩
    have h2 := hx.2
    simpa only [setHandler, hother x hxw] using h2

/-- A worker that stops being active through its removal is due for the write. -/
theorem tracked_removeBegin {w : WorkerId} {caller : Option WorkerId} {r : WorkerRegistry.State}
    (hseen : Seen s.registry) (hs : Tracked s)
    (h : WorkerRegistry.step s.registry (.removeBegin w caller) = some r) :
    Tracked { s with registry := r, due := dueAfter s (.removeBegin w caller) } := by
  simp only [WorkerRegistry.step] at h
  split at h
  · cases h
    by_cases ha : s.registry.activeWorkers (s.registry.workerGUID w) = some w
    · have hdue : ∀ x, Function.update s.due w true x = true → x = w ∨ s.due x = true := by
        intro x hx
        by_cases he : x = w
        · exact Or.inl he
        · rw [Function.update_of_ne he] at hx
          exact Or.inr hx
      simp only [dueAfter, ha, decide_true, if_true]
      refine ⟨hs.guid, fun x hx => ?_, fun g hk hg => ?_, fun g x hx => ?_, hs.coming⟩
      · by_cases he : x = w
        · refine ⟨?_, ?_, ?_⟩
          · rw [he]
            exact hseen.active _ w ha
          · simp [setRemoval, he]
          · simp [setRemoval, he]
        · rcases hdue x hx with hxw | hx
          · exact absurd hxw he
          · simpa [setRemoval, he] using hs.due x hx
      · by_cases hgw : g = s.registry.workerGUID w
        · refine Or.inr (Or.inr ⟨w, ?_, hgw.symm⟩)
          simp
        · rcases hs.reason g hk hg with hact | hcm | ⟨x, hx, hxg⟩
          · left
            simpa only [Function.update_of_ne hgw] using hact
          · exact Or.inr (Or.inl hcm)
          · have hxw : x ≠ w := by
              rintro rfl
              exact hgw hxg.symm
            refine Or.inr (Or.inr ⟨x, ?_, hxg⟩)
            exact (Function.update_of_ne hxw _ _).trans hx
      · by_cases hgw : g = s.registry.workerGUID w
        · simp [hgw] at hx
        · simp only [Function.update_of_ne hgw] at hx
          exact hs.active g x hx
    · rename_i hw
      have hnot : s.due w = false := by
        by_contra hd
        exact (hs.due w (by simpa using hd)).2.1 hw.2
      have hsame : Function.update s.due w false = s.due := by
        rw [← hnot, Function.update_eq_self]
      simp only [dueAfter, ha, decide_false, if_false, hsame]
      refine tracked_frame hs rfl rfl (fun x => Iff.rfl) (fun g x => Iff.rfl) (fun x hx => ?_)
      have hxw : x ≠ w := by
        rintro rfl
        rw [hnot] at hx
        cases hx
      simpa [setRemoval, hxw] using (hs.due x hx).2
  · cases h

theorem tracked_connect {w : WorkerId} {guid : Guid} {group : GroupName}
    (hs : Tracked s) (ha : s.registered w = some guid) (hw : s.registry.handler w = .absent) :
    Tracked { s with registry := { setHandler s.registry w .created with
      groupName := Function.update s.registry.groupName w group
      workerGUID := Function.update s.registry.workerGUID w guid } } := by
  have hother : ∀ x, x ≠ w →
      Function.update s.registry.handler w .created x = s.registry.handler x :=
    fun x hx => Function.update_of_ne hx _ _
  have hdue : ∀ x, s.due x = true → x ≠ w := by
    rintro x hx rfl
    exact (hs.due x hx).1 hw
  refine ⟨fun x hx => ?_, fun x hx => ?_, fun g hk hg => ?_, hs.active, fun g x hx => ?_⟩
  · by_cases he : x = w
    · simpa [he] using ha
    · have hg := hs.guid x (fun h => hx ((hother x he).trans h))
      simpa [he] using hg
  · refine ⟨fun h => (hs.due x hx).1 ((hother x (hdue x hx)).symm.trans h), (hs.due x hx).2⟩
  · rcases hs.reason g hk hg with hact | ⟨x, hx⟩ | ⟨x, hx, hxg⟩
    · exact Or.inl hact
    · by_cases he : x = w
      · refine Or.inr (Or.inl ⟨x, hx.1, Or.inr (Or.inl ?_)⟩)
        simp [setHandler, he]
      · refine Or.inr (Or.inl ⟨x, hx.1, ?_⟩)
        simpa only [setHandler, hother x he] using hx.2
    · refine Or.inr (Or.inr ⟨x, hx, ?_⟩)
      simpa [hdue x hx] using hxg
  · by_cases he : x = w
    · refine hs.coming g x ⟨hx.1, Or.inl ?_⟩
      rw [he]
      exact hw
    · refine hs.coming g x ⟨hx.1, ?_⟩
      have h2 := hx.2
      simpa only [setHandler, hother x he] using h2

/-- A handler that goes on without becoming active. -/
theorem tracked_setHandler {w : WorkerId} {pc : HandlerPc} (gs : Groups) (hs : Tracked s)
    (hw : s.registry.handler w ≠ .absent) (hpc : pc ≠ .absent)
    (hsame : (pc = .created ∨ ∃ old, pc = .gotActive old) ↔
      (s.registry.handler w = .created ∨ ∃ old, s.registry.handler w = .gotActive old)) :
    Tracked { s with registry := { setHandler s.registry w pc with groups := gs } } := by
  refine tracked_frame hs rfl rfl (fun x => ?_) (fun g x => ?_) (fun x hx => (hs.due x hx).2)
  · by_cases he : x = w
    · simp [setHandler, he, hw, hpc]
    · simp [setHandler, he]
  · by_cases he : x = w
    · rw [he]
      unfold Coming
      simp [setHandler, hw, hpc, hsame]
    · simp [Coming, setHandler, he]

theorem tracked_setRemoval {w : WorkerId} {pc : RemovePc} (gs : Groups) (hs : Tracked s)
    (hpc : s.due w = true → pc ≠ .notCalled ∧ pc ≠ .finished) :
    Tracked { s with registry := { setRemoval s.registry w pc with groups := gs } } := by
  refine tracked_frame hs rfl rfl (fun x => Iff.rfl) (fun g x => Iff.rfl) (fun x hx => ?_)
  by_cases he : x = w
  · rw [he] at hx
    simpa [setRemoval, he] using hpc hx
  · simpa [setRemoval, he] using (hs.due x hx).2

theorem tracked_registry {e : WorkerRegistry.Event} {r : WorkerRegistry.State}
    (hseen : Seen s.registry) (hs : Tracked s) (ha : allowed s e = true)
    (h : WorkerRegistry.step s.registry e = some r) :
    Tracked { s with registry := r, due := dueAfter s e } := by
  have hdue := fun w hw => (hs.due w hw).2
  cases WorkerRegistry.step_move h with
  | connect hw => exact tracked_connect hs (by simpa [allowed] using ha) hw
  | removeBegin => exact tracked_removeBegin hseen hs h
  | getActive hw | oldRemoved hw =>
    refine tracked_setHandler s.registry.groups hs ?_ ?_ ?_ <;> simp [hw]
  | setActive hw => exact tracked_setActive hs hw
  | addFirst hw | addReplacing hw =>
    refine tracked_setHandler _ hs ?_ ?_ ?_ <;> simp [hw]
  | leaveGroup => exact tracked_setRemoval _ hs (fun _ => by simp)
  | removeEnd =>
    simp only [allowed, decide_eq_true_eq] at ha
    refine tracked_setRemoval s.registry.groups hs (fun hd => ?_)
    rw [ha] at hd
    cases hd
  | syncMissing => exact hs
  | syncMove =>
    unfold moveWorkerToGroup
    split <;> exact tracked_frame hs rfl rfl (fun w => Iff.rfl) (fun g w => Iff.rfl) hdue
  | syncGet | getWorker =>
    exact tracked_frame hs rfl rfl (fun w => Iff.rfl) (fun g w => Iff.rfl) hdue

theorem seen_step (hs : Seen s.registry) (h : step s e = some t) : Seen t.registry := by
  cases e with
  | registerWorker w guid =>
    simp only [step] at h
    split at h
    · cases h
      exact hs
    · cases h
  | registry e =>
    simp only [step] at h
    split at h
    · obtain ⟨r, hr, ht⟩ := Option.map_eq_some_iff.mp h
      cases ht
      exact WorkerRegistry.seen_step hs hr
    · cases h
  | markOffline w =>
    simp only [step] at h
    split at h
    · cases h
      exact hs
    · cases h

theorem tracked_step (hseen : Seen s.registry) (hs : Tracked s) (hc : ClearsAlone s e)
    (h : step s e = some t) : Tracked t := by
  cases e with
  | registerWorker w guid => exact tracked_register hs h
  | markOffline w => exact tracked_markOffline hs hc h
  | registry e =>
    simp only [step] at h
    split at h
    · rename_i ha
      obtain ⟨r, hr, ht⟩ := Option.map_eq_some_iff.mp h
      cases ht
      exact tracked_registry hseen hs ha hr
    · cases h

/-- With no call in progress nothing is on its way and nothing is due. -/
theorem agrees_of_tracked (hs : Tracked s) (hq : Quiescent s) : Agrees s := by
  intro guid hk
  constructor
  · intro hon
    rcases hs.reason guid hk hon with ha | ⟨w, hreg, hpc⟩ | ⟨w, hd, -⟩
    · exact ha
    · rcases hq.1 w with hn | hr
      · rw [hn] at hreg
        cases hreg
      · simp [hr] at hpc
    · have hd' := (hs.due w hd).2
      rcases hq.2 w with hr | hr
      · exact absurd hr hd'.1
      · exact absurd hr hd'.2
  · intro ha
    obtain ⟨w, hw⟩ := Option.isSome_iff_exists.mp ha
    exact hs.active guid w hw

/-- In a run whose removals all clear the flag while no other worker of the GUID is
active or on its way, the flag is right whenever no call is in progress. -/
theorem online_of_clears (rows : Guid → Option Bool) (es : List Event)
    (hc : Meets step ClearsAlone (initial rows) es) :
    Always step (fun s => Quiescent s → Agrees s) (initial rows) es := by
  refine @always_of_invariant _ _ _ ClearsAlone (fun s => Seen s.registry ∧ Tracked s) _ ?_ ?_ _ _
    ⟨seen_initial, tracked_initial rows⟩ hc
  · intro s e t hs hc h
    exact ⟨seen_step hs.1 h, tracked_step hs.1 hs.2 hc h⟩
  · intro s hs hq
    exact agrees_of_tracked hs.2 hq

/-- A worker connects and disconnects. -/
def orderlyDisconnect : List Event :=
  [.registerWorker 0 "a", .registry (.connect 0 "a" "g"), .registry (.getActive 0),
    .registry (.setActive 0), .registry (.addToGroup 0), .registry (.removeBegin 0 none),
    .registry (.leaveGroup 0), .markOffline 0, .registry (.removeEnd 0)]

theorem online_orderly : Meets step ClearsAlone (initial fun _ => none) orderlyDisconnect ∧
    Always step (fun s => Quiescent s → Agrees s) (initial fun _ => none) orderlyDisconnect := by
  have hc : Meets step ClearsAlone (initial fun _ => none) orderlyDisconnect := by
    simp [orderlyDisconnect, Meets, ClearsAlone, Coming, step, allowed, dueAfter,
      WorkerRegistry.step, initial, WorkerRegistry.initial, setHandler, setRemoval,
      addWorkerToGroup, removeWorkerFromGroup, callsRemove]
    intro x hx
    by_cases he : x = 0
    · simp [he]
    · simp [he] at hx
  exact ⟨hc, online_of_clears (fun _ => none) orderlyDisconnect hc⟩

/-- The worker reconnects and becomes active before its old removal writes. -/
def crossedReconnect : List Event :=
  [.registerWorker 0 "a", .registry (.connect 0 "a" "g"), .registry (.getActive 0),
    .registry (.setActive 0), .registry (.addToGroup 0), .registry (.removeBegin 0 none),
    .registry (.leaveGroup 0), .registerWorker 1 "a", .registry (.connect 1 "a" "g"),
    .registry (.getActive 1), .registry (.setActive 1), .registry (.addToGroup 1),
    .markOffline 0, .registry (.removeEnd 0)]

theorem online_crossed : ∃ t, run step (initial fun _ => none) crossedReconnect = some t ∧
    Quiescent t ∧ Connected t "a" ∧ t.online "a" = some false ∧
    t.registry.activeWorkers "a" = some 1 ∧
    ¬Always step (fun s => Quiescent s → Agrees s) (initial fun _ => none) crossedReconnect := by
  have hq : ∀ t, run step (initial fun _ => none) crossedReconnect = some t → Quiescent t := by
    intro t ht
    cases ht
    refine ⟨fun w => ?_, fun w => ?_⟩
    · match w with
      | 0 => exact Or.inr rfl
      | 1 => exact Or.inr rfl
      | _ + 2 => exact Or.inl rfl
    · match w with
      | 0 => exact Or.inr rfl
      | _ + 1 => exact Or.inl rfl
  refine ⟨_, rfl, hq _ rfl, ⟨0, rfl⟩, rfl, rfl, fun h => ?_⟩
  have ha := h crossedReconnect [] _ (by simp) rfl (hq _ rfl) "a" ⟨0, rfl⟩
  exact absurd (ha.mpr rfl) (by decide)

end SplitProxy.WorkerOnline
