import Mathlib.Data.List.Basic

/-!
# Labelled runs of a partial step function

A step either is not enabled (`none`) or yields exactly one next state. All
nondeterminism (scheduling, the choice a select makes, what the outside does)
sits in the event, so a run is a list of events and a concrete run evaluates.
-/
namespace SplitProxy.Runs

variable {σ τ ε : Type} {step : σ → ε → Option σ} {C D : σ → ε → Prop}

/-- Execute every event in order; `none` when one of them is not enabled. -/
def run (step : σ → ε → Option σ) : σ → List ε → Option σ
  | s, [] => some s
  | s, e :: es => (step s e).bind (fun t => run step t es)

@[simp] theorem run_nil (s : σ) : run step s [] = some s := rfl

theorem run_cons (s : σ) (e : ε) (es : List ε) :
    run step s (e :: es) = (step s e).bind (fun t => run step t es) := rfl

theorem run_cons_some {s t : σ} {e : ε} {es : List ε} (h : run step s (e :: es) = some t) :
    ∃ m, step s e = some m ∧ run step m es = some t :=
  Option.bind_eq_some_iff.mp h

theorem run_append (s : σ) (es fs : List ε) :
    run step s (es ++ fs) = (run step s es).bind (fun t => run step t fs) := by
  induction es generalizing s with
  | nil => rfl
  | cons e es ih =>
    rw [List.cons_append, run_cons, run_cons, Option.bind_assoc]
    congr 1
    funext t
    exact ih t

theorem run_join {s m t : σ} {es fs : List ε} (h : run step s es = some m)
    (h' : run step m fs = some t) : run step s (es ++ fs) = some t := by
  rw [run_append, h]
  exact h'

/-- What a concrete run ends in may be evaluated one component at a time. -/
theorem run_component {β : Type} {s t : σ} {es : List ε} (h : run step s es = some t) (f : σ → β)
    {b : β} (hf : (run step s es).map f = some b) : f t = b := by
  rw [h] at hf
  exact Option.some.inj hf

/-- Every step the run takes satisfies `C` in the state it is taken from. -/
def Meets (step : σ → ε → Option σ) (C : σ → ε → Prop) : σ → List ε → Prop
  | _, [] => True
  | s, e :: es => C s e ∧ ∀ t, step s e = some t → Meets step C t es

@[simp] theorem meets_nil (s : σ) : Meets step C s [] := trivial

/-- Whether a run meets a condition that can be decided is found by executing it. -/
instance decidableMeets [∀ s e, Decidable (C s e)] :
    (s : σ) → (es : List ε) → Decidable (Meets step C s es)
  | _, [] => isTrue trivial
  | s, e :: es =>
    match h : step s e with
    | none => decidable_of_iff (C s e) ⟨fun hC => ⟨hC, by rw [h]; exact nofun⟩, And.left⟩
    | some t =>
      have : Decidable (Meets step C t es) := decidableMeets t es
      decidable_of_iff (C s e ∧ Meets step C t es)
        ⟨fun hC => ⟨hC.1, fun u hu => by rw [h] at hu; cases hu; exact hC.2⟩,
          fun hC => ⟨hC.1, hC.2 t h⟩⟩

/-- Following a run whose step is known. -/
theorem meets_step {s t : σ} {e : ε} {es : List ε} (hC : C s e) (h : step s e = some t)
    (hm : Meets step C t es) : Meets step C s (e :: es) := by
  refine ⟨hC, fun u hu => ?_⟩
  rw [h] at hu
  cases hu
  exact hm

theorem meets_of_forall (h : ∀ s e, C s e) (s : σ) (es : List ε) : Meets step C s es := by
  induction es generalizing s with
  | nil => trivial
  | cons e es ih => exact ⟨h s e, fun t _ => ih t⟩

theorem meets_of_mem {s : σ} {es : List ε} (h : ∀ e ∈ es, ∀ s, C s e) : Meets step C s es := by
  induction es generalizing s with
  | nil => trivial
  | cons e es ih =>
    exact ⟨h e (by simp) s, fun t _ => ih (fun f hf => h f (List.mem_cons_of_mem e hf))⟩

theorem meets_and {s : σ} {es : List ε} (hC : Meets step C s es) (hD : Meets step D s es) :
    Meets step (fun s e => C s e ∧ D s e) s es := by
  induction es generalizing s with
  | nil => trivial
  | cons e es ih => exact ⟨⟨hC.1, hD.1⟩, fun t ht => ih (hC.2 t ht) (hD.2 t ht)⟩

theorem meets_append {s : σ} {es fs : List ε} (hm : Meets step C s es)
    (h : ∀ t, run step s es = some t → Meets step C t fs) : Meets step C s (es ++ fs) := by
  induction es generalizing s with
  | nil => exact h s rfl
  | cons e es ih =>
    refine ⟨hm.1, fun t ht => ih (hm.2 t ht) fun u hu => h u ?_⟩
    rw [run_cons, ht]
    exact hu

theorem meets_append_left {s : σ} {es fs : List ε} (hm : Meets step C s (es ++ fs)) :
    Meets step C s es := by
  induction es generalizing s with
  | nil => trivial
  | cons e es ih => exact ⟨hm.1, fun t ht => ih (hm.2 t ht)⟩

theorem meets_append_right {s m : σ} {es fs : List ε} (hm : Meets step C s (es ++ fs))
    (h : run step s es = some m) : Meets step C m fs := by
  induction es generalizing s with
  | nil => cases h; exact hm
  | cons e es ih =>
    obtain ⟨t, ht, hr⟩ := run_cons_some h
    exact ih (hm.2 t ht) hr

theorem meets_iff_forall {s : σ} {es : List ε} : Meets step C s es ↔
    ∀ l e m t, es = l ++ e :: m → run step s l = some t → C t e := by
  constructor
  · intro hm l e m t he hr
    rw [he] at hm
    exact (meets_append_right hm hr).1
  · intro hall
    induction es generalizing s with
    | nil => trivial
    | cons e es ih =>
      refine ⟨hall [] e es s rfl rfl, fun t ht => ih fun l e' m u he hr => ?_⟩
      refine hall (e :: l) e' m u (by rw [he]; rfl) ?_
      rw [run_cons, ht]
      exact hr

/-- The induction rule for runs: an invariant of every step that meets `C` is
an invariant of every run whose steps all meet `C`. -/
theorem run_invariant {I : σ → Prop}
    (hstep : ∀ s e t, I s → C s e → step s e = some t → I t) {s t : σ} {es : List ε}
    (hI : I s) (hm : Meets step C s es) (h : run step s es = some t) : I t := by
  induction es generalizing s with
  | nil => cases h; exact hI
  | cons e es ih =>
    obtain ⟨m, hs, hr⟩ := run_cons_some h
    exact ih (hstep s e m hI hm.1 hs) (hm.2 m hs) hr

/-- What an invariant makes true of every step, every step of a run has. -/
theorem meets_of_invariant {I : σ → Prop}
    (hstep : ∀ s e t, I s → C s e → step s e = some t → I t) (hD : ∀ s e, I s → C s e → D s e)
    {s : σ} {es : List ε} (hI : I s) (hm : Meets step C s es) : Meets step D s es := by
  induction es generalizing s with
  | nil => trivial
  | cons e es ih => exact ⟨hD s e hI hm.1, fun t ht => ih (hstep s e t hI hm.1 ht) (hm.2 t ht)⟩

/-- The same rule when every step preserves the invariant. -/
theorem run_preserves {I : σ → Prop} (hstep : ∀ s e t, I s → step s e = some t → I t)
    {s t : σ} {es : List ε} (hI : I s) (h : run step s es = some t) : I t :=
  run_invariant (C := fun _ _ => True) (fun s e t hI _ hs => hstep s e t hI hs) hI
    (meets_of_forall (fun _ _ => trivial) s es) h

/-- The same rule for what is said of a state and the events that led to it. -/
theorem run_history {I : List ε → σ → Prop} {s₀ : σ} (hI : I [] s₀)
    (hstep : ∀ es s e t, I es s → step s e = some t → I (es ++ [e]) t) {t : σ} {es : List ε}
    (h : run step s₀ es = some t) : I es t := by
  have hgo : ∀ {s : σ} {done rest : List ε}, I done s → run step s rest = some t →
      I (done ++ rest) t := by
    intro s done rest
    induction rest generalizing s done with
    | nil =>
      intro hs hr
      cases hr
      rw [List.append_nil]
      exact hs
    | cons e rest ih =>
      intro hs hr
      obtain ⟨m, hm, hrest⟩ := run_cons_some hr
      rw [List.append_cons]
      exact ih (hstep done s e m hs hm) hrest
  exact hgo hI h

/-- A run that ends with `m` of a measure no step raises has met `C` throughout,
if `K` is kept while `C` is met and the first step that does not meet it costs
the measure its last chance. -/
theorem meets_of_measure {I K : σ → Prop} {P : σ → ε → Prop} {measure : σ → Nat} {m : Nat}
    (hinv : ∀ s e t, I s → step s e = some t → I t)
    (hmono : ∀ s e t, I s → step s e = some t → measure t ≤ measure s)
    (hkeep : ∀ s e t, I s → K s → P s e → C s e → step s e = some t → K t)
    (hlost : ∀ s e t, I s → K s → P s e → ¬C s e → step s e = some t → measure t < m)
    {s t : σ} {es : List ε} (hI : I s) (hK : K s) (hP : Meets step P s es)
    (hr : run step s es = some t) (hm : m ≤ measure t) : Meets step C s es := by
  have hdown : ∀ {s : σ} {es : List ε}, I s → run step s es = some t → measure t ≤ measure s := by
    intro s es
    induction es generalizing s with
    | nil =>
      intro _ hr
      cases hr
      exact Nat.le_refl _
    | cons e es ih =>
      intro hI hr
      obtain ⟨n, hs, hr⟩ := run_cons_some hr
      exact Nat.le_trans (ih (hinv s e n hI hs) hr) (hmono s e n hI hs)
  induction es generalizing s with
  | nil => trivial
  | cons e es ih =>
    obtain ⟨n, hs, hr⟩ := run_cons_some hr
    have hIn := hinv s e n hI hs
    have hC : C s e := by
      by_contra hn
      have hlt := hlost s e n hI hK hP.1 hn hs
      have hle := hdown hIn hr
      omega
    refine ⟨hC, fun t' ht' => ?_⟩
    rw [hs] at ht'
    cases ht'
    exact ih hIn (hkeep s e n hI hK hP.1 hC hs) (hP.2 n hs) hr

/-- `P` holds in the first state and after every step of the run. -/
def Always (step : σ → ε → Option σ) (P : σ → Prop) (s : σ) (es : List ε) : Prop :=
  ∀ es₁ es₂ t, es = es₁ ++ es₂ → run step s es₁ = some t → P t

theorem always_of_invariant {I P : σ → Prop}
    (hstep : ∀ s e t, I s → C s e → step s e = some t → I t) (hP : ∀ s, I s → P s)
    {s : σ} {es : List ε} (hI : I s) (hm : Meets step C s es) : Always step P s es := by
  intro es₁ es₂ t he hr
  subst he
  exact hP t (run_invariant hstep hI (meets_append_left hm) hr)

/-- When the steps that do not meet `C` are enabled and break `P`, the runs that
keep `P` throughout are exactly those that meet `C` throughout. -/
theorem always_iff_meets {I P : σ → Prop}
    (hinv : ∀ s e t, I s → step s e = some t → I t)
    (hkeep : ∀ s e t, I s → P s → C s e → step s e = some t → P t)
    (hbreak : ∀ s e, I s → P s → ¬C s e → ∃ t, step s e = some t ∧ ¬P t)
    {s : σ} {es : List ε} (hI : I s) (hP : P s) :
    Always step P s es ↔ Meets step C s es := by
  constructor
  · intro ha
    induction es generalizing s with
    | nil => trivial
    | cons e es ih =>
      have hC : C s e := by
        by_contra hn
        obtain ⟨t, ht, hnP⟩ := hbreak s e hI hP hn
        refine hnP (ha [e] es t rfl ?_)
        rw [run_cons, ht]
        rfl
      refine ⟨hC, fun t ht => ih (hinv s e t hI ht) (hkeep s e t hI hP hC ht) ?_⟩
      intro es₁ es₂ u he hu
      refine ha (e :: es₁) es₂ u (by rw [he]; rfl) ?_
      rw [run_cons, ht]
      exact hu
  · intro hm
    refine @always_of_invariant _ _ _ C (fun s => I s ∧ P s) P ?_ (fun s h => h.2) _ _ ⟨hI, hP⟩ hm
    exact fun s e t h hC hs => ⟨hinv s e t h.1 hs, hkeep s e t h.1 h.2 hC hs⟩

/-- States some run reaches from an initial one. -/
def Reachable (step : σ → ε → Option σ) (initial : σ → Prop) (t : σ) : Prop :=
  ∃ s es, initial s ∧ run step s es = some t

theorem reachable_invariant {initial I : σ → Prop} (hinit : ∀ s, initial s → I s)
    (hstep : ∀ s e t, I s → step s e = some t → I t) {t : σ}
    (h : Reachable step initial t) : I t := by
  obtain ⟨s, es, hs, hr⟩ := h
  exact run_preserves hstep (hinit s hs) hr

end SplitProxy.Runs
