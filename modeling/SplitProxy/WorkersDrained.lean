import SplitProxy.BrokerShutdown

/-!
# What a shutdown leaves of the workers

A worker is put into the map of active workers by a handler that has asked for the
shutdown flag before, so the map may be read before a worker gets there.
-/
namespace SplitProxy.BrokerShutdown

open Runs SyncMap Hello

variable {workerToken proxyToken : Bytes} {s t : State} {e : Event} {es : List Event}
variable {w x : WorkerId} {p : ProxyId}

/-! ## The workers -/

/-- `setActiveWorker` has been called, and what is left to do is the old worker's removal. -/
def settled : WorkerPc → Bool
  | .entered _ | .removingOld _ | .running => true
  | _ => false

/-- The worker that the handler is to remove in the end. -/
def oldOf : WorkerPc → Option WorkerId
  | .gotActive old | .entering old | .entered old => old
  | .removingOld old => some old
  | _ => none

/-- A handler that has taken the place of `w` is yet to remove it. -/
def Replaced (s : State) (w : WorkerId) : Prop :=
  ∃ x, settled (s.worker x) = true ∧ oldOf (s.worker x) = some w

/-- `main` is yet to remove the worker. -/
def closesWorker (w : WorkerId) : MainPc → Prop
  | .closingWorkers ws => w ∈ ws
  | _ => False

structure Leaves (s : State) : Prop where
  functional : Functional s.activeWorkers
  active : ∀ guid w, load s.activeWorkers guid = some w →
    s.workerGUID w = guid ∧ s.entry w ≠ .never ∧ s.removal w = .notCalled
  entered : ∀ w, s.entry w ≠ .never → settled (s.worker w) = true
  old : ∀ w x, oldOf (s.worker w) = some x → s.entry x ≠ .never
  called : ∀ w, s.removal w ≠ .notCalled → settled (s.worker w) = true
  main : ∀ w, closesWorker w s.main → s.entry w ≠ .never
  /-- why a worker that has entered is where it is -/
  held : ∀ w, s.entry w ≠ .never → load s.activeWorkers (s.workerGUID w) = some w ∨
    s.removal w ≠ .notCalled ∨ Replaced s w ∨ s.overwritten w = true
  early : hasRead s.main = true → ∀ w, s.entry w = .early →
    load s.activeWorkers (s.workerGUID w) = some w → closesWorker w s.main

theorem leaves_initial : Leaves initial := by
  constructor
  · exact functional_nil
  · intro guid w h
    cases h
  · intro w h
    exact absurd rfl h
  · intro w x h
    cases h
  · intro w h
    exact absurd rfl h
  · intro w h
    cases h
  · intro w h
    exact absurd rfl h
  · intro h
    cases h

theorem replaced_setWorker {pc : WorkerPc} (hkeep : settled (s.worker w) = true →
      oldOf (s.worker w) = some x → (settled pc = true ∧ oldOf pc = some x) ∨ s.removal x ≠ .notCalled)
    (h : Replaced s x) : Replaced (setWorker s w pc) x ∨ s.removal x ≠ .notCalled := by
  obtain ⟨y, hsettled, hold⟩ := h
  by_cases hyw : y = w
  · subst hyw
    rcases hkeep hsettled hold with ⟨hsettled', hold'⟩ | hcalled
    · left
      use y
      simp only [setWorker, Function.update_self]
      exact ⟨hsettled', hold'⟩
    · exact Or.inr hcalled
  · left
    use y
    simp only [setWorker, Function.update_of_ne hyw]
    exact ⟨hsettled, hold⟩

/-- A handler goes on without touching the map. -/
theorem leaves_setWorker {pc : WorkerPc} (hs : Leaves s)
    (hsettled : settled (s.worker w) = true → settled pc = true)
    (hold : ∀ x, oldOf pc = some x → s.entry x ≠ .never)
    (hkeep : ∀ x, settled (s.worker w) = true → oldOf (s.worker w) = some x →
      (settled pc = true ∧ oldOf pc = some x) ∨ s.removal x ≠ .notCalled) :
    Leaves (setWorker s w pc) := by
  have hstays : ∀ x, settled (s.worker x) = true → settled ((setWorker s w pc).worker x) = true := by
    intro x hx
    by_cases hxw : x = w
    · subst hxw
      simp only [setWorker, Function.update_self]
      exact hsettled hx
    · simp only [setWorker, Function.update_of_ne hxw]
      exact hx
  constructor
  · exact hs.functional
  · exact hs.active
  · exact fun x hx => hstays x (hs.entered x hx)
  · intro y x hx
    by_cases hyw : y = w
    · subst hyw
      simp only [setWorker, Function.update_self] at hx
      exact hold x hx
    · simp only [setWorker, Function.update_of_ne hyw] at hx
      exact hs.old y x hx
  · exact fun x hx => hstays x (hs.called x hx)
  · exact hs.main
  · intro x hx
    rcases hs.held x hx with hactive | hcalled | hreplaced | hover
    · exact Or.inl hactive
    · exact Or.inr (Or.inl hcalled)
    · rcases replaced_setWorker (hkeep x) hreplaced with hreplaced | hcalled
      · exact Or.inr (Or.inr (Or.inl hreplaced))
      · exact Or.inr (Or.inl hcalled)
    · exact Or.inr (Or.inr (Or.inr hover))
  · exact hs.early

theorem leaves_workerCheck (hs : Leaves s)
    (h : step workerToken proxyToken s (.workerCheck w) = some t) : Leaves t := by
  obtain ⟨pc, hpc, rfl⟩ := Option.map_eq_some_iff.mp h
  have hnot : settled (s.worker w) = false := by
    revert hpc
    cases s.worker w <;> simp [workerChecked, settled]
  apply leaves_setWorker hs
  · rw [hnot]
    intro hc
    cases hc
  · intro x hx
    apply hs.old w x
    revert hpc hx
    cases s.worker w <;> simp [workerChecked]
    all_goals
      cases s.shuttingDown <;> simp
      all_goals
        rintro rfl
        simp [oldOf]
  · rw [hnot]
    intro x hc
    cases hc

theorem leaves_hello {hello : Option WorkerHello} (hs : Leaves s)
    (h : step workerToken proxyToken s (.workerHello w hello) = some t) : Leaves t := by
  simp only [step] at h
  split at h
  · rename_i hpc
    have hnot : settled (s.worker w) = false := by rw [hpc]; rfl
    have hnever : s.entry w = .never := by
      by_contra hne
      rw [hs.entered w hne] at hnot
      cases hnot
    have hmove : ∀ pc, settled pc = false → oldOf pc = none → Leaves (setWorker s w pc) := by
      intro pc hsettled hold
      apply leaves_setWorker hs
      · rw [hnot]
        intro hc
        cases hc
      · rw [hold]
        intro x hc
        cases hc
      · rw [hnot]
        intro x hc
        cases hc
    split at h
    · cases h
      have hgreeted := hmove .greeted rfl rfl
      have hguid : ∀ x, s.entry x ≠ .never → ∀ guid,
          Function.update s.workerGUID w guid x = s.workerGUID x := by
        intro x hx guid
        apply Function.update_of_ne
        rintro rfl
        exact hx hnever
      constructor
      · exact hs.functional
      · intro guid x hx
        obtain ⟨hxguid, hentry, hremoval⟩ := hs.active guid x hx
        exact ⟨(hguid x hentry _).trans hxguid, hentry, hremoval⟩
      · exact hgreeted.entered
      · exact hgreeted.old
      · exact hgreeted.called
      · exact hgreeted.main
      · intro x hx
        have hheld := hgreeted.held x hx
        simp only [hguid x hx]
        exact hheld
      · intro hread x hx
        have hne : s.entry x ≠ .never := by
          rw [show s.entry x = .early from hx]
          simp
        simp only [hguid x hne]
        exact hgreeted.early hread x hx
    · cases h
      exact hmove .refused rfl rfl
  · cases h

theorem overwrites_iff {old : Option WorkerId} :
    overwrites s w old x = true ↔
      load s.activeWorkers (s.workerGUID w) = some x ∧ old ≠ some x := by
  simp [overwrites]

theorem leaves_setActive (hs : Leaves s)
    (h : step workerToken proxyToken s (.setActive w) = some t) : Leaves t := by
  simp only [step] at h
  split at h
  · rename_i old hpc
    cases h
    have hnever : s.entry w = .never := by
      by_contra hne
      have hsettled := hs.entered w hne
      rw [hpc] at hsettled
      cases hsettled
    have hcalled : s.removal w = .notCalled := by
      by_contra hne
      have hsettled := hs.called w hne
      rw [hpc] at hsettled
      cases hsettled
    have hentry : ∀ x, s.entry x ≠ .never → ∀ v, Function.update s.entry w v x = s.entry x := by
      intro x hx v
      apply Function.update_of_ne
      rintro rfl
      exact hx hnever
    have hself : ∀ {v : Entry}, v ≠ .never → Function.update s.entry w v w ≠ .never := by
      intro v hv
      rwa [Function.update_self]
    have hv : (if hasRead s.main = true then Entry.late else .early) ≠ .never := by
      split <;> simp
    have hkept : ∀ x, s.entry x ≠ .never →
        Function.update s.entry w (if hasRead s.main = true then .late else .early) x ≠ .never := by
      intro x hx
      rw [hentry x hx]
      exact hx
    have hworker : ∀ x, settled (s.worker x) = true →
        Function.update s.worker w (.entered old) x = s.worker x := by
      intro x hx
      apply Function.update_of_ne
      rintro rfl
      rw [hpc] at hx
      cases hx
    constructor
    · exact hs.functional.store _ _
    · intro guid x hx
      rcases load_of_store hx with ⟨rfl, rfl⟩ | ⟨hne, hx⟩
      · exact ⟨rfl, hself hv, hcalled⟩
      · obtain ⟨hxguid, hxentry, hremoval⟩ := hs.active guid x hx
        exact ⟨hxguid, hkept x hxentry, hremoval⟩
    · intro x hx
      by_cases hxw : x = w
      · subst hxw
        simp [setWorker, settled]
      · simp only [Function.update_of_ne hxw] at hx
        simp only [setWorker, Function.update_of_ne hxw]
        exact hs.entered x hx
    · intro y x hx
      apply hkept
      by_cases hyw : y = w
      · subst hyw
        simp only [setWorker, Function.update_self] at hx
        apply hs.old y x
        rw [hpc]
        exact hx
      · simp only [setWorker, Function.update_of_ne hyw] at hx
        exact hs.old y x hx
    · intro x hx
      have hsettled := hs.called x hx
      rw [← hworker x hsettled] at hsettled
      exact hsettled
    · intro x hx
      exact hkept x (hs.main x hx)
    · intro x hx
      by_cases hxw : x = w
      · subst hxw
        left
        exact load_store_self _ _ _
      · simp only [Function.update_of_ne hxw] at hx
        rcases hs.held x hx with hactive | hremoval | ⟨y, hsettled, hy⟩ | hover
        · by_cases hguid : s.workerGUID x = s.workerGUID w
          · right
            right
            rw [hguid] at hactive
            by_cases hold : old = some x
            · left
              use w
              simp [setWorker, settled, oldOf, hold]
            · right
              simp [overwrites_iff.mpr ⟨hactive, hold⟩]
          · left
            exact (load_store_other _ _ hguid).trans hactive
        · exact Or.inr (Or.inl hremoval)
        · refine Or.inr (Or.inr (Or.inl ⟨y, ?_⟩))
          simp only [setWorker, hworker y hsettled]
          exact ⟨hsettled, hy⟩
        · right
          right
          right
          simp [hover]
    · intro hread x hx hactive
      have hread' : hasRead s.main = true := hread
      by_cases hxw : x = w
      · subst hxw
        simp only [Function.update_self, if_pos hread'] at hx
        cases hx
      · simp only [Function.update_of_ne hxw] at hx
        rcases load_of_store hactive with ⟨-, hxw'⟩ | ⟨-, hactive⟩
        · exact absurd hxw' hxw
        · exact hs.early hread x hx hactive
  · cases h

theorem leaves_removeBegin {caller : Caller} (hs : Leaves s)
    (h : step workerToken proxyToken s (.removeBegin w caller) = some t) : Leaves t := by
  simp only [step] at h
  split at h
  · rename_i hcall
    cases h
    have hsettled : settled (s.worker w) = true := by
      cases caller with
      | own =>
        have hrunning : s.worker w = .running := by simpa [callsRemove] using hcall.2
        rw [hrunning]
        rfl
      | handler x =>
        have hremoving : s.worker x = .removingOld w := by simpa [callsRemove] using hcall.2
        exact hs.entered w (hs.old x w (by rw [hremoving]; rfl))
      | main =>
        apply hs.entered w
        apply hs.main
        have hmain := hcall.2
        revert hmain
        simp only [callsRemove]
        split
        · rename_i x ws hmain
          intro hx
          simp only [decide_eq_true_eq] at hx
          simp [hmain, closesWorker, hx]
        · intro hc
          cases hc
    -- what the map holds afterwards it held before, and not for this worker
    have hload : ∀ guid x,
        load (if load s.activeWorkers (s.workerGUID w) = some w then
          delete s.activeWorkers (s.workerGUID w) else s.activeWorkers) guid = some x →
        load s.activeWorkers guid = some x ∧ x ≠ w := by
      intro guid x hx
      split at hx
      · obtain ⟨hne, hold⟩ := load_of_delete hx
        refine ⟨hold, ?_⟩
        rintro rfl
        exact hne (hs.active guid x hold).1.symm
      · rename_i hno
        refine ⟨hx, ?_⟩
        rintro rfl
        rw [(hs.active guid x hx).1] at hno
        exact hno hx
    have hremoval : ∀ x, x ≠ w → Function.update s.removal w .begun x = s.removal x :=
      fun x hx => Function.update_of_ne hx _ _
    constructor
    · simp only
      split
      · exact hs.functional.delete _
      · exact hs.functional
    · intro guid x hx
      obtain ⟨hx, hxw⟩ := hload guid x hx
      obtain ⟨hguid, hentry, hcalled⟩ := hs.active guid x hx
      exact ⟨hguid, hentry, (hremoval x hxw).trans hcalled⟩
    · exact hs.entered
    · exact hs.old
    · intro x hx
      by_cases hxw : x = w
      · rw [hxw]
        exact hsettled
      · simp only [hremoval x hxw] at hx
        exact hs.called x hx
    · exact hs.main
    · intro x hx
      by_cases hxw : x = w
      · right
        left
        simp [hxw]
      · rcases hs.held x hx with hactive | hcalled | hreplaced | hover
        · by_cases hguid : s.workerGUID x = s.workerGUID w
          · have hno : load s.activeWorkers (s.workerGUID w) ≠ some w := by
              rw [← hguid, hactive]
              simpa using hxw
            left
            simp only [if_neg hno]
            exact hactive
          · left
            simp only
            split
            · exact (load_delete_other _ hguid).trans hactive
            · exact hactive
        · right
          left
          rw [← hremoval x hxw] at hcalled
          exact hcalled
        · exact Or.inr (Or.inr (Or.inl hreplaced))
        · exact Or.inr (Or.inr (Or.inr hover))
    · intro hread x hx hactive
      exact hs.early hread x hx (hload _ x hactive).1
  · cases h

theorem leaves_removeEnd (hs : Leaves s)
    (h : step workerToken proxyToken s (.removeEnd w) = some t) : Leaves t := by
  simp only [step] at h
  split at h
  · rename_i hbegun
    cases h
    have hcalled : ∀ x, Function.update s.removal w .finished x = .notCalled ↔
        s.removal x = .notCalled := by
      intro x
      by_cases hxw : x = w
      · subst hxw
        simp [hbegun]
      · rw [Function.update_of_ne hxw]
    constructor
    · exact hs.functional
    · intro guid x hx
      obtain ⟨hguid, hentry, hx⟩ := hs.active guid x hx
      exact ⟨hguid, hentry, (hcalled x).mpr hx⟩
    · exact hs.entered
    · exact hs.old
    · exact fun x hx => hs.called x (mt (hcalled x).mpr hx)
    · exact hs.main
    · intro x hx
      exact (hs.held x hx).imp_right (Or.imp_left (mt (hcalled x).mp))
    · exact hs.early
  · cases h

theorem leaves_worker (hs : Leaves s) (he : partyOf e = .worker)
    (h : step workerToken proxyToken s e = some t) : Leaves t := by
  cases e with
  | workerCheck w => exact leaves_workerCheck hs h
  | workerHello w hello => exact leaves_hello hs h
  | setActive w => exact leaves_setActive hs h
  | removeBegin w caller => exact leaves_removeBegin hs h
  | removeEnd w => exact leaves_removeEnd hs h
  | workerRegister w ok =>
    simp only [step] at h
    split at h
    · rename_i hpc
      cases h
      apply leaves_setWorker hs
      · rw [hpc]
        intro hc
        cases hc
      · intro x hx
        cases ok <;> cases hx
      · rw [hpc]
        intro x hc
        cases hc
    · cases h
  | getActive w =>
    simp only [step] at h
    split at h
    · rename_i hpc
      cases h
      apply leaves_setWorker hs
      · rw [hpc]
        intro hc
        cases hc
      · exact fun x hx => (hs.active _ x hx).2.1
      · rw [hpc]
        intro x hc
        cases hc
    · cases h
  | replace w =>
    simp only [step] at h
    split at h
    · rename_i hpc
      cases h
      apply leaves_setWorker hs
      · exact fun _ => rfl
      · intro x hx
        cases hx
      · rw [hpc]
        intro x _ hx
        cases hx
    · rename_i old hpc
      cases h
      apply leaves_setWorker hs
      · exact fun _ => rfl
      · intro x hx
        exact hs.old w x (by rw [hpc]; exact hx)
      · rw [hpc]
        exact fun x _ hx => Or.inl ⟨rfl, hx⟩
    · cases h
  | oldRemoved w =>
    simp only [step] at h
    split at h
    · rename_i old hpc
      split at h
      · rename_i hfinished
        cases h
        apply leaves_setWorker hs
        · exact fun _ => rfl
        · intro x hx
          cases hx
        · rw [hpc]
          intro x _ hx
          cases hx
          right
          simp [hfinished]
      · cases h
    · cases h
  | _ => cases he

theorem leaves_main (hs : Leaves s) (he : partyOf e = .main)
    (h : step workerToken proxyToken s e = some t) : Leaves t := by
  obtain ⟨hsame, -⟩ := main_step he h
  obtain ⟨hmoves, -⟩ := main_moves he h
  have hreplaced : ∀ w, Replaced t w ↔ Replaced s w := by
    intro w
    rw [Replaced, Replaced, hsame.worker]
  constructor
  · rw [hsame.active]
    exact hs.functional
  · rw [hsame.active, hsame.guid, hsame.entry, hsame.removal]
    exact hs.active
  · rw [hsame.entry, hsame.worker]
    exact hs.entered
  · rw [hsame.entry, hsame.worker]
    exact hs.old
  · rw [hsame.removal, hsame.worker]
    exact hs.called
  · rw [hsame.entry]
    generalize t.main = m at hmoves
    intro w hw
    cases hmoves with
    | readWorkers hmain hws =>
      obtain ⟨⟨guid, x⟩, hmem, rfl⟩ := List.mem_map.mp (hws.mem_iff.mp hw)
      exact (hs.active guid x (hs.functional guid x hmem)).2.1
    | workerClosed hmain hfinished =>
      apply hs.main
      rw [hmain]
      exact List.mem_cons_of_mem _ hw
    | flag | readProxies | proxyClosed | stop => cases hw
  · rw [hsame.entry, hsame.active, hsame.guid, hsame.removal, hsame.overwritten]
    simp only [hreplaced]
    exact hs.held
  · rw [hsame.entry, hsame.active, hsame.guid]
    generalize t.main = m at hmoves ⊢
    intro hread w hw hactive
    cases hmoves with
    | flag hmain => cases hread
    | readWorkers hmain hws =>
      apply hws.mem_iff.mpr
      exact List.mem_map.mpr ⟨_, mem_of_load hactive, rfl⟩
    | workerClosed hmain hfinished =>
      have hold := hs.early (by rw [hmain]; rfl) w hw hactive
      rw [hmain] at hold
      rcases List.mem_cons.mp hold with rfl | hmem
      · rw [(hs.active _ w hactive).2.2] at hfinished
        cases hfinished
      · exact hmem
    | readProxies hmain | proxyClosed hmain | stop hmain =>
      have hold := hs.early (by rw [hmain]; rfl) w hw hactive
      rw [hmain] at hold
      cases hold

theorem leaves_step (hs : Leaves s) (h : step workerToken proxyToken s e = some t) : Leaves t := by
  cases he : partyOf e with
  | main => exact leaves_main hs he h
  | worker => exact leaves_worker hs he h
  | proxy =>
    obtain ⟨hmain, hsame⟩ := proxy_step he h
    have hreplaced : ∀ w, Replaced t w ↔ Replaced s w := by
      intro w
      rw [Replaced, Replaced, hsame.worker]
    constructor
    · rw [hsame.active]
      exact hs.functional
    · rw [hsame.active, hsame.guid, hsame.entry, hsame.removal]
      exact hs.active
    · rw [hsame.entry, hsame.worker]
      exact hs.entered
    · rw [hsame.entry, hsame.worker]
      exact hs.old
    · rw [hsame.removal, hsame.worker]
      exact hs.called
    · rw [hmain.main, hsame.entry]
      exact hs.main
    · rw [hsame.entry, hsame.active, hsame.guid, hsame.removal, hsame.overwritten]
      simp only [hreplaced]
      exact hs.held
    · rw [hmain.main, hsame.entry, hsame.active, hsame.guid]
      exact hs.early

/-- What is left of the workers when `closeAllWorkers` has returned: the map of active
workers holds only those that came after it had been read, and each that was there in
time is removed or being removed, is yet to be removed by the handler that has taken its
place, or had been overwritten by a handler that had looked before it was there. -/
theorem workers_drained (hr : run (step workerToken proxyToken) initial es = some s)
    (hclosed : workersClosed s.main = true) :
    (∀ guid w, load s.activeWorkers guid = some w → s.entry w = .late) ∧
      ∀ w, s.entry w = .early →
        s.removal w ≠ .notCalled ∨ Replaced s w ∨ s.overwritten w = true := by
  have hs : Leaves s := run_preserves (fun _ _ _ => leaves_step) leaves_initial hr
  have hread : hasRead s.main = true := by
    revert hclosed
    cases s.main <;> simp [workersClosed, hasRead]
  have hnone : ∀ w, ¬closesWorker w s.main := by
    intro w
    revert hclosed
    cases s.main <;> simp [workersClosed, closesWorker]
  constructor
  · intro guid w hw
    obtain ⟨hguid, hentry, -⟩ := hs.active guid w hw
    cases hcase : s.entry w with
    | never => exact absurd hcase hentry
    | late => rfl
    | early =>
      rw [← hguid] at hw
      exact absurd (hs.early hread w hcase hw) (hnone w)
  · intro w hw
    have hne : s.entry w ≠ .never := by
      rw [hw]
      simp
    rcases hs.held w hne with hactive | hleft
    · exact absurd (hs.early hread w hw hactive) (hnone w)
    · exact hleft

theorem workers_drained_busy : ∃ t, t.main = .stopped ∧
    run (step [115] [115]) initial ((busy ++ [Event.setShuttingDown]) ++ closes) = some t ∧
      load t.activeWorkers [98] = some 1 ∧ t.entry 1 = .late ∧
      (t.removal 0 ≠ .notCalled ∨ Replaced t 0 ∨ t.overwritten 0 = true) := by
  obtain ⟨s, t, hs, -, ht, hmain, -, hearly, hlate⟩ := run_closes
  have hall := run_join hs ht
  obtain ⟨hactive, hleft⟩ := workers_drained hall (by rw [hmain]; rfl)
  exact ⟨t, hmain, hall, hlate, hactive _ _ hlate, hleft 0 hearly⟩

/-! ## When no worker outlives the shutdown -/

/-- `main` is past the signal, and no handler is about to put its worker into the map. -/
structure Shut (s : State) : Prop where
  flag : s.shuttingDown = true
  none : ∀ w old, s.worker w ≠ .entering old

theorem entry_step (he : ∀ w, e ≠ .setActive w) (h : step workerToken proxyToken s e = some t) :
    t.entry = s.entry := by
  cases hparty : partyOf e with
  | main => exact (main_step hparty h).1.entry
  | proxy => exact (proxy_step hparty h).2.entry
  | worker =>
    cases e with
    | setActive w => exact absurd rfl (he w)
    | workerCheck w =>
      obtain ⟨pc, -, rfl⟩ := Option.map_eq_some_iff.mp h
      rfl
    | workerHello w hello =>
      simp only [step] at h
      split at h
      · split at h <;> cases h <;> rfl
      · cases h
    | replace w =>
      simp only [step] at h
      split at h <;> cases h <;> rfl
    | oldRemoved w =>
      simp only [step] at h
      split at h
      · split at h <;> cases h
        rfl
      · cases h
    | workerRegister w ok | getActive w | removeBegin w caller | removeEnd w =>
      simp only [step] at h
      split at h <;> cases h
      rfl
    | _ => cases hparty

/-- Nobody comes late before the map has been read. -/
def Timely (s : State) : Prop := ∀ w, s.entry w = .late → hasRead s.main = true

theorem timely_step (hs : Timely s) (h : step workerToken proxyToken s e = some t) : Timely t := by
  have hread : hasRead s.main = true → hasRead t.main = true := by
    cases he : partyOf e with
    | main =>
      obtain ⟨hmoves, -⟩ := main_moves he h
      generalize t.main = m at hmoves ⊢
      cases hmoves with
      | flag hmain =>
        rw [hmain]
        exact id
      | readWorkers | workerClosed | readProxies | proxyClosed | stop => exact fun _ => rfl
    | worker =>
      rw [(worker_step he h).1.main]
      exact id
    | proxy =>
      rw [(proxy_step he h).1.main]
      exact id
  by_cases he : ∃ w, e = .setActive w
  · obtain ⟨w, rfl⟩ := he
    simp only [step] at h
    split at h
    · cases h
      intro x hx
      by_cases hxw : x = w
      · subst hxw
        simp only [Function.update_self] at hx
        by_contra hno
        have hno' : ¬hasRead s.main = true := hno
        rw [if_neg hno'] at hx
        cases hx
      · simp only [Function.update_of_ne hxw] at hx
        exact hs x hx
    · cases h
  · intro w hw
    rw [entry_step (fun x hx => he ⟨x, hx⟩) h] at hw
    exact hread (hs w hw)

theorem shut_setWorker {pc : WorkerPc} (hs : Shut s) (hpc : ∀ old, pc ≠ .entering old) :
    Shut (setWorker s w pc) := by
  constructor
  · exact hs.flag
  · intro x old
    by_cases hxw : x = w
    · subst hxw
      simp only [setWorker, Function.update_self]
      exact hpc old
    · simp only [setWorker, Function.update_of_ne hxw]
      exact hs.none x old

theorem shut_step (hs : Shut s) (h : step workerToken proxyToken s e = some t) :
    Shut t ∧ t.entry = s.entry := by
  have hentry : ∀ w, e ≠ .setActive w := by
    rintro w rfl
    simp only [step] at h
    split at h
    · rename_i old hpc
      exact hs.none w old hpc
    · cases h
  refine ⟨?_, entry_step hentry h⟩
  cases he : partyOf e with
  | main =>
    obtain ⟨hsame, -⟩ := main_step he h
    obtain ⟨-, hflag⟩ := main_moves he h
    constructor
    · rw [hflag, hs.flag]
      rfl
    · rw [hsame.worker]
      exact hs.none
  | proxy =>
    obtain ⟨hmain, hsame⟩ := proxy_step he h
    constructor
    · rw [hmain.flag]
      exact hs.flag
    · rw [hsame.worker]
      exact hs.none
  | worker =>
    cases e with
    | setActive w => exact absurd rfl (hentry w)
    | workerCheck w =>
      obtain ⟨pc, hpc, rfl⟩ := Option.map_eq_some_iff.mp h
      apply shut_setWorker hs
      rintro old rfl
      rw [hs.flag] at hpc
      revert hpc
      cases s.worker w <;> simp [workerChecked]
    | workerHello w hello =>
      simp only [step] at h
      split at h
      · split at h
        · cases h
          have hgreeted := @shut_setWorker s w .greeted hs (by simp)
          exact ⟨hgreeted.flag, hgreeted.none⟩
        · cases h
          exact shut_setWorker hs (by simp)
      · cases h
    | workerRegister w ok =>
      simp only [step] at h
      split at h <;> cases h
      apply shut_setWorker hs
      cases ok <;> simp
    | getActive w =>
      simp only [step] at h
      split at h <;> cases h
      exact shut_setWorker hs (by simp)
    | replace w =>
      simp only [step] at h
      split at h <;> cases h <;> exact shut_setWorker hs (by simp)
    | oldRemoved w =>
      simp only [step] at h
      split at h
      · split at h <;> cases h
        exact shut_setWorker hs (by simp)
      · cases h
    | removeBegin w caller | removeEnd w =>
      simp only [step] at h
      split at h <;> cases h
      exact ⟨hs.flag, hs.none⟩
    | _ => cases he

theorem shut_run (hs : Shut s) (h : run (step workerToken proxyToken) s es = some t) :
    t.entry = s.entry := by
  induction es generalizing s with
  | nil =>
    cases h
    rfl
  | cons e es ih =>
    obtain ⟨m, hstep, hrun⟩ := run_cons_some h
    obtain ⟨hm, hentry⟩ := shut_step hs hstep
    rw [ih hm hrun, hentry]

/-- What `main` does by itself leaves the handlers where they are. -/
structure SameHandlers (s t : State) : Prop where
  worker : t.worker = s.worker
  guid : t.workerGUID = s.workerGUID

theorem SameHandlers.trans {u : State} (h : SameHandlers s t) (h' : SameHandlers t u) :
    SameHandlers s u :=
  ⟨h'.worker.trans h.worker, h'.guid.trans h.guid⟩

/-- `main` brings the removal of the next worker to its end. -/
theorem closes_worker {ws : List WorkerId} (hmain : s.main = .closingWorkers (w :: ws)) :
    ∃ es t, run (step workerToken proxyToken) s es = some t ∧ t.main = .closingWorkers ws ∧
      SameHandlers s t := by
  have hfinished : ∀ {u : State}, u.main = .closingWorkers (w :: ws) → u.removal w = .finished →
      step workerToken proxyToken u .workerClosed = some { u with main := .closingWorkers ws } := by
    intro u hu hw
    simp only [step, hu, hw, ↓reduceIte]
  have hbegun : ∀ {u : State}, u.main = .closingWorkers (w :: ws) → u.removal w = .begun →
      run (step workerToken proxyToken) u [.removeEnd w, .workerClosed] =
        some { u with
          removal := Function.update u.removal w .finished
          main := .closingWorkers ws } := by
    intro u hu hw
    have hend : step workerToken proxyToken u (.removeEnd w) =
        some { u with removal := Function.update u.removal w .finished } := if_pos hw
    have hclosed := @hfinished { u with removal := Function.update u.removal w .finished } hu
      (Function.update_self _ _ _)
    rw [run_cons, hend, Option.bind_some, run_cons, hclosed]
    rfl
  cases hw : s.removal w with
  | finished =>
    refine ⟨[.workerClosed], { s with main := .closingWorkers ws }, ?_, rfl, rfl, rfl⟩
    rw [run_cons, hfinished hmain hw]
    rfl
  | begun => exact ⟨_, _, hbegun hmain hw, rfl, rfl, rfl⟩
  | notCalled =>
    have hcalls : callsRemove s w .main = true := by simp [callsRemove, hmain]
    obtain ⟨m, hbegin, hm, hworker, hguid, hremoval⟩ :
        ∃ m, step workerToken proxyToken s (.removeBegin w .main) = some m ∧
          m.main = s.main ∧ m.worker = s.worker ∧ m.workerGUID = s.workerGUID ∧
          m.removal w = .begun :=
      ⟨_, if_pos ⟨hw, hcalls⟩, rfl, rfl, rfl, Function.update_self _ _ _⟩
    have hrest := hbegun (hm.trans hmain) hremoval
    refine ⟨.removeBegin w .main :: [.removeEnd w, .workerClosed],
      { m with removal := Function.update m.removal w .finished, main := .closingWorkers ws },
      ?_, rfl, hworker, hguid⟩
    rw [run_cons, hbegin, Option.bind_some, hrest]

theorem closes_workers {ws : List WorkerId} (hmain : s.main = .closingWorkers ws) :
    ∃ es t, run (step workerToken proxyToken) s es = some t ∧ t.main = .closingWorkers [] ∧
      SameHandlers s t := by
  induction ws generalizing s with
  | nil => exact ⟨[], s, rfl, hmain, rfl, rfl⟩
  | cons w ws ih =>
    obtain ⟨es, t, hrun, ht, hsame⟩ := @closes_worker workerToken proxyToken _ _ _ hmain
    obtain ⟨fs, u, hrun', hu, hsame'⟩ := ih ht
    exact ⟨es ++ fs, u, run_join hrun hrun', hu, hsame.trans hsame'⟩

theorem closes_proxy {ps : List ProxyId} (hmain : s.main = .closingProxies (p :: ps)) :
    ∃ es t, run (step workerToken proxyToken) s es = some t ∧ t.main = .closingProxies ps ∧
      SameHandlers s t := by
  have hfinished : ∀ {u : State}, u.main = .closingProxies (p :: ps) → u.closing p = .finished →
      step workerToken proxyToken u .proxyClosed = some { u with main := .closingProxies ps } := by
    intro u hu hp
    simp only [step, hu, hp, ↓reduceIte]
  have hbegun : ∀ {u : State}, u.main = .closingProxies (p :: ps) → u.closing p = .begun →
      run (step workerToken proxyToken) u [.closeEnd p, .proxyClosed] =
        some { u with
          closing := Function.update u.closing p .finished
          main := .closingProxies ps } := by
    intro u hu hp
    have hend : step workerToken proxyToken u (.closeEnd p) =
        some { u with closing := Function.update u.closing p .finished } := if_pos hp
    have hclosed := @hfinished { u with closing := Function.update u.closing p .finished } hu
      (Function.update_self _ _ _)
    rw [run_cons, hend, Option.bind_some, run_cons, hclosed]
    rfl
  cases hp : s.closing p with
  | finished =>
    refine ⟨[.proxyClosed], { s with main := .closingProxies ps }, ?_, rfl, rfl, rfl⟩
    rw [run_cons, hfinished hmain hp]
    rfl
  | begun => exact ⟨_, _, hbegun hmain hp, rfl, rfl, rfl⟩
  | notCalled =>
    have hcalls : callsClose s p .main = true := by simp [callsClose, hmain]
    obtain ⟨m, hbegin, hm, hworker, hguid, hclosing⟩ :
        ∃ m, step workerToken proxyToken s (.closeBegin p .main) = some m ∧
          m.main = s.main ∧ m.worker = s.worker ∧ m.workerGUID = s.workerGUID ∧
          m.closing p = .begun :=
      ⟨_, if_pos ⟨hp, hcalls⟩, rfl, rfl, rfl, Function.update_self _ _ _⟩
    have hrest := hbegun (hm.trans hmain) hclosing
    refine ⟨.closeBegin p .main :: [.closeEnd p, .proxyClosed],
      { m with closing := Function.update m.closing p .finished, main := .closingProxies ps },
      ?_, rfl, hworker, hguid⟩
    rw [run_cons, hbegin, Option.bind_some, hrest]

theorem closes_proxies {ps : List ProxyId} (hmain : s.main = .closingProxies ps) :
    ∃ es t, run (step workerToken proxyToken) s es = some t ∧ t.main = .closingProxies [] ∧
      SameHandlers s t := by
  induction ps generalizing s with
  | nil => exact ⟨[], s, rfl, hmain, rfl, rfl⟩
  | cons p ps ih =>
    obtain ⟨es, t, hrun, ht, hsame⟩ := @closes_proxy workerToken proxyToken _ _ _ hmain
    obtain ⟨fs, u, hrun', hu, hsame'⟩ := ih ht
    exact ⟨es ++ fs, u, run_join hrun hrun', hu, hsame.trans hsame'⟩

/-- From the signal `main` can run to its end while no handler moves. -/
theorem main_stops (hmain : s.main = .listening) :
    ∃ es t, run (step workerToken proxyToken) s (.setShuttingDown :: es) = some t ∧
      t.main = .stopped ∧ SameHandlers s t := by
  have hset : step workerToken proxyToken s .setShuttingDown =
      some { s with shuttingDown := true, main := .flagged } := if_pos hmain
  have hread : step workerToken proxyToken { s with shuttingDown := true, main := .flagged }
      (.readWorkers (s.activeWorkers.map Prod.snd)) = some _ := if_pos ⟨rfl, List.Perm.refl _⟩
  obtain ⟨es, t, hrun, ht, hsame⟩ := @closes_workers workerToken proxyToken
    { s with shuttingDown := true, main := .closingWorkers (s.activeWorkers.map Prod.snd) } _ rfl
  have hread' : step workerToken proxyToken t (.readProxies t.proxyConnections) = some _ :=
    if_pos ⟨ht, List.Perm.refl _⟩
  obtain ⟨fs, u, hrun', hu, hsame'⟩ := @closes_proxies workerToken proxyToken
    { t with main := .closingProxies t.proxyConnections } _ rfl
  have hstop : step workerToken proxyToken u .stop = some { u with main := .stopped } := if_pos hu
  refine ⟨.readWorkers (s.activeWorkers.map Prod.snd) :: (es ++
    .readProxies t.proxyConnections :: (fs ++ [.stop])), { u with main := .stopped }, ?_, rfl,
    hsame'.worker.trans hsame.worker, hsame'.guid.trans hsame.guid⟩
  rw [run_cons, hset, Option.bind_some, run_cons, hread, Option.bind_some]
  apply run_join hrun
  rw [run_cons, hread', Option.bind_some]
  apply run_join hrun'
  rw [run_cons, hstop]
  rfl

/-- After the signal every continuation leaves the map of active workers empty once
`closeAllWorkers` has returned, exactly if no handler stands in `setActiveWorker` between
its check and its store when the flag is set. -/
theorem drained_iff (hr : run (step workerToken proxyToken) initial es = some s)
    (hmain : s.main = .listening) :
    (∀ fs t, run (step workerToken proxyToken) s (.setShuttingDown :: fs) = some t →
      workersClosed t.main = true → ∀ guid, load t.activeWorkers guid = none) ↔
      ∀ w old, s.worker w ≠ .entering old := by
  constructor
  · intro hempty w old hw
    obtain ⟨fs, t, hrun, ht, hsame⟩ := @main_stops workerToken proxyToken s hmain
    have hpc : t.worker w = .entering old := by rw [hsame.worker, hw]
    obtain ⟨u, hset, hu, hload⟩ : ∃ u, step workerToken proxyToken t (.setActive w) = some u ∧
        u.main = .stopped ∧ load u.activeWorkers (t.workerGUID w) = some w := by
      simp only [step, hpc]
      exact ⟨_, rfl, ht, load_store_self _ _ _⟩
    have hlast : run (step workerToken proxyToken) t [.setActive w] = some u := by
      rw [run_cons, hset]
      rfl
    have hall : run (step workerToken proxyToken) s
        (.setShuttingDown :: (fs ++ [.setActive w])) = some u := by
      rw [← List.cons_append]
      exact run_join hrun hlast
    have hnone := hempty _ u hall (by rw [hu]; rfl) (t.workerGUID w)
    rw [hload] at hnone
    cases hnone
  · intro hquiet fs t hrun hclosed guid
    by_contra hsome
    obtain ⟨w, hw⟩ := Option.ne_none_iff_exists'.mp hsome
    have hlate := (workers_drained (run_join hr hrun) hclosed).1 guid w hw
    have htimely : Timely s :=
      run_preserves (fun _ _ _ => timely_step) (fun w hw => by cases hw) hr
    obtain ⟨m, hstep, hrest⟩ := run_cons_some hrun
    have hm : m = { s with shuttingDown := true, main := .flagged } := by
      have hset : step workerToken proxyToken s .setShuttingDown =
          some { s with shuttingDown := true, main := .flagged } := if_pos hmain
      rw [hset] at hstep
      exact (Option.some.inj hstep).symm
    have hentry := @shut_run workerToken proxyToken m t fs (by rw [hm]; exact ⟨rfl, hquiet⟩) hrest
    rw [hentry, hm] at hlate
    have hread := htimely w hlate
    rw [hmain] at hread
    cases hread

theorem drained_iff_busy : ∃ s, run (step [115] [115]) initial busy = some s ∧
    ¬∀ fs t, run (step [115] [115]) s (.setShuttingDown :: fs) = some t →
      workersClosed t.main = true → ∀ guid, load t.activeWorkers guid = none := by
  obtain ⟨s, hs, hmain, hw⟩ := run_busy
  exact ⟨s, hs, fun hempty => (drained_iff hs hmain).mp hempty 1 none hw⟩

end SplitProxy.BrokerShutdown
