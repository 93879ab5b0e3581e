import Mathlib.Data.Int.CardIntervalMod
import SplitProxy.WorkerRegistry

/-!
# Round robin

Sequences of calls that change or read the group lists, each under `groupsMu`. The
rotation counter of a group lives as long as its entry; every worker of an unchanged
list gets its share of the answers from wherever the counter stands.
-/
namespace SplitProxy.WorkerRegistry

inductive Call where
  | addWorkerToGroup (w : WorkerId)
  | removeWorkerFromGroup (w : WorkerId)
  | moveWorkerToGroup (w : WorkerId) (newGroup : GroupName)
  | getWorker (g : GroupName)
  deriving DecidableEq, Repr

/-- One call: the state it leaves, and the worker a `getWorker` returns. -/
def call (s : State) : Call → State × Option WorkerId
  | .addWorkerToGroup w => (addWorkerToGroup s w, none)
  | .removeWorkerFromGroup w => (removeWorkerFromGroup s w, none)
  | .moveWorkerToGroup w newGroup => (moveWorkerToGroup s w newGroup, none)
  | .getWorker g => ({ s with groups := (getWorker s.groups g).2 }, (getWorker s.groups g).1)

def after (s : State) (calls : List Call) : State := calls.foldl (fun s c => (call s c).1) s

/-- No groups yet; the workers have the names they were built with. -/
def start (names : WorkerId → GroupName) : State := { initial with groupName := names }

/-- What the calls of `getWorker(g)` return, in order. -/
def answers (g : GroupName) : State → List Call → List (Option WorkerId)
  | _, [] => []
  | s, c :: calls =>
    if c = .getWorker g then (call s c).2 :: answers g (call s c).1 calls
    else answers g (call s c).1 calls

/-- No call changes the list of `g`. -/
def Steady (g : GroupName) : State → List Call → Prop
  | _, [] => True
  | s, c :: calls => members (call s c).1.groups g = members s.groups g ∧ Steady g (call s c).1 calls

/-- One occurrence of `w` is gone, if there is one, and the others stand as before. -/
def CutOnce (w : WorkerId) (before after : List WorkerId) : Prop :=
  (∃ front back, before = front ++ w :: back ∧ after = front ++ back) ∨ w ∉ before ∧ after = before

/-- Every member has its share of so many answers, rounded down or up. -/
def Fair (members : List WorkerId) (answers : List (Option WorkerId)) : Prop :=
  ∀ w ∈ members, answers.count (some w) = answers.length / members.length ∨
    answers.count (some w) = (answers.length + members.length - 1) / members.length

/-- An entry is there for as long as its list is not empty, and its counter is within
the number of `getWorker` calls so far. -/
structure Entries (n : Nat) (gs : Groups) : Prop where
  nonempty : ∀ g grp, gs g = some grp → grp.workers ≠ []
  counted : ∀ g grp, gs g = some grp → grp.rr ≤ n

/-- How many of the calls are `getWorker`. -/
def gets (calls : List Call) : Nat := calls.countP (fun c => c matches .getWorker _)

/-! ## The lists -/

variable {s : State} {gs : Groups} {g g' : GroupName} {w : WorkerId} {grp : WorkerGroup} {c : Call}
  {calls : List Call} {names : WorkerId → GroupName}

theorem cutOnce_erase (w : WorkerId) (l : List WorkerId) : CutOnce w l (l.erase w) := by
  by_cases hw : w ∈ l
  · obtain ⟨front, back, -, hl, herase⟩ := List.exists_erase_eq hw
    exact Or.inl ⟨front, back, hl, herase⟩
  · exact Or.inr ⟨hw, List.erase_of_not_mem hw⟩

theorem appendTo_other (h : g ≠ g') : appendTo gs g' w g = gs g := Function.update_of_ne h _ _

theorem cutFrom_other (h : g ≠ g') : cutFrom gs g' w g = gs g := by
  cases hgs : gs g' <;> simp [cutFrom, hgs, h]

theorem cutFrom_self (h : gs g = some grp) : cutFrom gs g w g =
    if grp.workers.erase w = [] then none else some { grp with workers := grp.workers.erase w } := by
  simp [cutFrom, h]

theorem getWorker_other (h : g ≠ g') : (getWorker gs g').2 g = gs g := by
  cases hgs : gs g' with
  | none => simp [getWorker, hgs]
  | some grp => by_cases hn : grp.workers = [] <;> simp [getWorker, hgs, hn, h]

/-- The call answers the worker at the counter and turns it on. -/
theorem getWorker_self (h : gs g = some grp) (hne : grp.workers ≠ []) :
    (getWorker gs g).1 = grp.workers[grp.rr % grp.workers.length]? ∧
      (getWorker gs g).2 g = some { grp with rr := grp.rr + 1 } := by
  simp [getWorker, h, hne]

variable {n : Nat}

/-- One entry changes, and it has what is asked of entries. -/
theorem Entries.change {n' : Nat} {gs' : Groups} (h : Entries n gs) (hn : n ≤ n')
    (hother : ∀ g' ≠ g, gs' g' = gs g')
    (hself : ∀ grp, gs' g = some grp → grp.workers ≠ [] ∧ grp.rr ≤ n') : Entries n' gs' := by
  have hall : ∀ g' grp, gs' g' = some grp → grp.workers ≠ [] ∧ grp.rr ≤ n' := by
    intro g' grp hgrp
    by_cases hg : g' = g
    · subst hg
      exact hself grp hgrp
    · rw [hother g' hg] at hgrp
      exact ⟨h.nonempty g' grp hgrp, Nat.le_trans (h.counted g' grp hgrp) hn⟩
  exact ⟨fun g' grp hgrp => (hall g' grp hgrp).1, fun g' grp hgrp => (hall g' grp hgrp).2⟩

theorem Entries.appendTo (h : Entries n gs) (g : GroupName) (w : WorkerId) :
    Entries n (appendTo gs g w) := by
  refine h.change (Nat.le_refl n) (fun _ hg => appendTo_other hg) fun grp hgrp => ?_
  rw [WorkerRegistry.appendTo, Function.update_self] at hgrp
  cases hgrp
  refine ⟨by simp, ?_⟩
  cases hg : gs g with
  | none => exact Nat.zero_le n
  | some old => exact h.counted g old hg

theorem Entries.cutFrom (h : Entries n gs) (g : GroupName) (w : WorkerId) :
    Entries n (cutFrom gs g w) := by
  refine h.change (Nat.le_refl n) (fun _ hg => cutFrom_other hg) fun grp hgrp => ?_
  cases hg : gs g with
  | none => simp [WorkerRegistry.cutFrom, hg] at hgrp
  | some old =>
    rw [cutFrom_self hg, Option.ite_none_left_eq_some] at hgrp
    obtain ⟨hne, hgrp⟩ := hgrp
    cases hgrp
    exact ⟨hne, h.counted g old hg⟩

theorem Entries.getWorker (h : Entries n gs) (g : GroupName) :
    Entries (n + 1) (getWorker gs g).2 := by
  refine h.change (Nat.le_succ n) (fun _ hg => getWorker_other hg) fun grp hgrp => ?_
  cases hg : gs g with
  | none => simp [WorkerRegistry.getWorker, hg] at hgrp
  | some old =>
    have hne := h.nonempty g old hg
    rw [(getWorker_self hg hne).2] at hgrp
    cases hgrp
    exact ⟨hne, Nat.succ_le_succ (h.counted g old hg)⟩

theorem entries_call (h : Entries n s.groups) (c : Call) :
    Entries (n + gets [c]) (call s c).1.groups := by
  cases c with
  | addWorkerToGroup w => exact h.appendTo _ w
  | removeWorkerFromGroup w => exact h.cutFrom _ w
  | moveWorkerToGroup w newGroup =>
    simp only [call, moveWorkerToGroup]
    split
    · exact h
    · split
      · exact h.cutFrom _ w
      · exact (h.cutFrom _ w).appendTo _ w
  | getWorker g => exact h.getWorker g

/-- Every entry of every run is in use, with its counter below the number of calls. -/
theorem entries_after (names : WorkerId → GroupName) (calls : List Call) :
    Entries (gets calls) (after (start names) calls).groups := by
  induction calls using List.reverseRecOn with
  | nil => exact ⟨nofun, nofun⟩
  | append_singleton calls c ih =>
    have hlast := entries_call ih c
    rw [gets, gets, ← List.countP_append, ← gets] at hlast
    rw [after, List.foldl_append]
    exact hlast

/-! ## A steady stretch -/

theorem appendTo_kept (hgrp : gs g = some grp)
    (hsteady : members (appendTo gs g' w) g = grp.workers) : appendTo gs g' w g = some grp := by
  by_cases hg : g = g'
  · subst hg
    rw [members_appendTo, if_pos rfl, members, hgrp] at hsteady
    simp at hsteady
  · rw [appendTo_other hg, hgrp]

theorem cutFrom_kept (hgrp : gs g = some grp) (hne : grp.workers ≠ [])
    (hsteady : members (cutFrom gs g' w) g = grp.workers) : cutFrom gs g' w g = some grp := by
  by_cases hg : g = g'
  · subst hg
    rw [members_cutFrom, if_pos rfl, members, hgrp] at hsteady
    rw [cutFrom_self hgrp, hsteady, if_neg hne]
  · rw [cutFrom_other hg, hgrp]

/-- Only `getWorker` touches an entry whose list stays. -/
theorem entry_kept (hgrp : s.groups g = some grp) (hne : grp.workers ≠ []) (hc : c ≠ .getWorker g)
    (hsteady : members (call s c).1.groups g = grp.workers) :
    (call s c).1.groups g = some grp := by
  cases c with
  | addWorkerToGroup w => exact appendTo_kept hgrp hsteady
  | removeWorkerFromGroup w => exact cutFrom_kept hgrp hne hsteady
  | moveWorkerToGroup w newGroup =>
    simp only [call, moveWorkerToGroup] at hsteady ⊢
    by_cases hsame : s.groupName w = newGroup
    · rw [if_pos hsame]
      exact hgrp
    · rw [if_neg hsame] at hsteady ⊢
      by_cases hnone : newGroup = ""
      · simp only [hnone, ↓reduceIte] at hsteady ⊢
        exact cutFrom_kept hgrp hne hsteady
      · simp only [hnone, ↓reduceIte] at hsteady ⊢
        refine appendTo_kept ?_ hsteady
        by_cases hg : g = newGroup
        · -- the new group's list would have grown
          subst hg
          rw [cutFrom_other (Ne.symm hsame), hgrp]
        · refine cutFrom_kept hgrp hne ?_
          rw [← hsteady, members_appendTo, if_neg hg]
  | getWorker g' =>
    have hg : g ≠ g' := fun he => hc (he ▸ rfl)
    exact (getWorker_other hg).trans hgrp

/-- What `getWorker` answers in turn, from a counter at `r`. -/
def turn (workers : List WorkerId) (r m : Nat) : List (Option WorkerId) :=
  (List.range m).map fun k => workers[(r + k) % workers.length]?

theorem turn_succ (workers : List WorkerId) (r m : Nat) :
    turn workers r (m + 1) = workers[r % workers.length]? :: turn workers (r + 1) m := by
  rw [turn, List.range_succ_eq_map, List.map_cons, List.map_map]
  refine congrArg _ (List.map_congr_left fun k _ => ?_)
  simp only [Function.comp, Nat.succ_eq_add_one]
  rw [Nat.add_right_comm, Nat.add_assoc]

theorem answers_turn (hgrp : s.groups g = some grp) (hne : grp.workers ≠ [])
    (hsteady : Steady g s calls) :
    answers g s calls = turn grp.workers grp.rr (calls.count (.getWorker g)) := by
  induction calls generalizing s grp with
  | nil => rfl
  | cons c calls ih =>
    obtain ⟨hfirst, hrest⟩ := hsteady
    have hmembers : members s.groups g = grp.workers := by rw [members, hgrp]
    rw [hmembers] at hfirst
    by_cases hc : c = .getWorker g
    · subst hc
      obtain ⟨hanswer, hentry⟩ := getWorker_self hgrp hne
      rw [answers, if_pos rfl, List.count_cons_self, turn_succ]
      have hlater := @ih (call s (.getWorker g)).1 ⟨grp.workers, grp.rr + 1⟩ hentry hne hrest
      exact congr (congrArg _ hanswer) hlater
    · rw [answers, if_neg hc, List.count_cons_of_ne hc]
      exact ih (entry_kept hgrp hne hc hfirst) hne hrest

/-- The turn of the place `i` is counted from the counter on. -/
theorem turn_modEq {n r i k : Nat} (hi : i < n) :
    (r + k) % n = i ↔ k ≡ i + n - r % n [MOD n] := by
  have hr : r % n < n := Nat.mod_lt r (by omega)
  have hback : (r + (i + n - r % n)) % n = i := by
    have hsum : r + (i + n - r % n) = i + n * (r / n + 1) := by
      have hdiv := Nat.div_add_mod r n
      rw [Nat.mul_add]
      omega
    rw [hsum, Nat.add_mul_mod_self_left, Nat.mod_eq_of_lt hi]
  constructor
  · intro h
    exact Nat.ModEq.add_left_cancel' r (h.trans hback.symm)
  · intro h
    have hmod : (r + k) % n = (r + (i + n - r % n)) % n := Nat.ModEq.add_left r h
    exact hmod.trans hback

/-- In `m` turns a place comes up as often as `m` has numbers of its residue. -/
theorem count_turn {workers : List WorkerId} (hdistinct : workers.Nodup) (hw : w ∈ workers)
    (r m : Nat) : ∃ v, (turn workers r m).count (some w) =
      m / workers.length + if v % workers.length < m % workers.length then 1 else 0 := by
  obtain ⟨i, hi, rfl⟩ := List.getElem_of_mem hw
  have hpos : 0 < workers.length := Nat.lt_of_le_of_lt (Nat.zero_le i) hi
  refine ⟨i + workers.length - r % workers.length, ?_⟩
  rw [← Nat.count_modEq_card _ hpos]
  have hturn : ∀ k, workers[(r + k) % workers.length]? = some workers[i] ↔
      k ≡ i + workers.length - r % workers.length [MOD workers.length] := by
    intro k
    have hk : (r + k) % workers.length < workers.length := Nat.mod_lt _ hpos
    rw [List.getElem?_eq_getElem hk, Option.some.injEq, hdistinct.getElem_inj_iff]
    exact turn_modEq hi
  induction m with
  | zero => rfl
  | succ m ih =>
    rw [turn, List.range_succ, List.map_append, List.count_append, Nat.count_succ, ← turn, ih]
    by_cases hk : m ≡ i + workers.length - r % workers.length [MOD workers.length]
    · simp [hk, (hturn m).mpr hk]
    · have hne := (not_congr (hturn m)).mpr hk
      simp [hk, hne]

/-- A quotient with a remainder is rounded up to the next number. -/
theorem div_add_one {m n : Nat} (hn : 0 < n) (h : 0 < m % n) : m / n + 1 = (m + n - 1) / n := by
  have hsum : m + n - 1 = m % n - 1 + n * (m / n + 1) := by
    have hdiv := Nat.div_add_mod m n
    rw [Nat.mul_add]
    omega
  have hlt := Nat.mod_lt m hn
  have hsmall : (m % n - 1) / n = 0 := Nat.div_eq_of_lt (by omega)
  rw [hsum, Nat.add_mul_div_left _ _ hn, hsmall, Nat.zero_add]

theorem fair_turn {workers : List WorkerId} (hdistinct : workers.Nodup) (r m : Nat) :
    Fair workers (turn workers r m) := by
  intro w hw
  have hpos : 0 < workers.length := List.length_pos_of_mem hw
  have hlength : (turn workers r m).length = m := by rw [turn, List.length_map, List.length_range]
  obtain ⟨v, hcount⟩ := count_turn hdistinct hw r m
  rw [hlength, hcount]
  split
  · exact Or.inr (div_add_one hpos (by omega))
  · exact Or.inl rfl

/-- A list that is not empty belongs to an entry. -/
theorem entry_of_members {n : Nat} (h : Entries n gs) :
    (gs g).isSome ↔ members gs g ≠ [] := by
  cases hg : gs g with
  | none => simp [members, hg]
  | some grp => simp [members, hg, h.nonempty g grp hg]

/-- After any calls: a group has an entry exactly while its list is not empty, its counter
never exceeds the number of `getWorker` calls; an add appends the worker to the list of
its group name, a removal cuts it out of there and a move to another group does so too
and appends it there, with all other lists as they were; `getWorker` changes no list; and
over any stretch that leaves a list of distinct workers as it is, each of them has its
share of the answers. -/
theorem round_robin_fair (names : WorkerId → GroupName) (history : List Call) :
    let s := after (start names) history
    (∀ g, (s.groups g).isSome ↔ members s.groups g ≠ []) ∧
    (∀ g grp, s.groups g = some grp → grp.rr ≤ gets history) ∧
    (∀ w, let t := addWorkerToGroup s w
      members t.groups (s.groupName w) = members s.groups (s.groupName w) ++ [w] ∧
        ∀ g ≠ s.groupName w, members t.groups g = members s.groups g) ∧
    (∀ w, let t := removeWorkerFromGroup s w
      CutOnce w (members s.groups (s.groupName w)) (members t.groups (s.groupName w)) ∧
        ∀ g ≠ s.groupName w, members t.groups g = members s.groups g) ∧
    (∀ w newGroup, s.groupName w ≠ newGroup → let t := moveWorkerToGroup s w newGroup
      CutOnce w (members s.groups (s.groupName w)) (members t.groups (s.groupName w)) ∧
        (newGroup ≠ "" → members t.groups newGroup = members s.groups newGroup ++ [w]) ∧
        ∀ g ≠ s.groupName w, g ≠ newGroup ∨ newGroup = "" → members t.groups g = members s.groups g) ∧
    (∀ g g', members (call s (.getWorker g)).1.groups g' = members s.groups g') ∧
    ∀ g calls, members s.groups g ≠ [] → (members s.groups g).Nodup → Steady g s calls →
      (answers g s calls).length = calls.count (.getWorker g) ∧
        Fair (members s.groups g) (answers g s calls) := by
  intro s
  have hentries : Entries (gets history) s.groups := entries_after names history
  refine ⟨fun g => entry_of_members hentries, hentries.counted, fun w => ?_, fun w => ?_,
    fun w newGroup hne => ?_, fun g g' => members_getWorker s.groups g g',
    fun g calls hmembers hdistinct hsteady => ?_⟩
  · simp only [addWorkerToGroup, members_appendTo, ↓reduceIte]
    exact ⟨trivial, fun g hg => if_neg hg⟩
  · simp only [removeWorkerFromGroup, members_cutFrom, ↓reduceIte]
    exact ⟨cutOnce_erase w _, fun g hg => if_neg hg⟩
  · simp only [moveWorkerToGroup, if_neg hne]
    by_cases hnone : newGroup = ""
    · simp only [hnone, ↓reduceIte, members_cutFrom, ne_eq, not_true_eq_false, false_implies, true_and]
      exact ⟨cutOnce_erase w _, fun g hg _ => if_neg hg⟩
    · simp only [hnone, ↓reduceIte, members_appendTo, members_cutFrom, if_neg hne, or_false]
      refine ⟨cutOnce_erase w _, fun _ => by rw [if_neg (Ne.symm hne)], fun g hg hg' => ?_⟩
      rw [if_neg hg', if_neg hg]
  · cases hgrp : s.groups g with
    | none => exact absurd (by rw [members, hgrp]) hmembers
    | some grp =>
      have hworkers : members s.groups g = grp.workers := by rw [members, hgrp]
      rw [hworkers] at hmembers hdistinct ⊢
      rw [answers_turn hgrp hmembers hsteady]
      refine ⟨by rw [turn, List.length_map, List.length_range], ?_⟩
      exact fair_turn hdistinct grp.rr _

/-- Three workers of one group, two of which have been asked, and then a fourth elsewhere
joins and leaves between the requests to the group. -/
def joined : List Call :=
  [.addWorkerToGroup 0, .addWorkerToGroup 1, .addWorkerToGroup 2, .getWorker "eu", .getWorker "eu"]

def stretch : List Call :=
  [.getWorker "eu", .addWorkerToGroup 3, .getWorker "eu", .getWorker "us", .getWorker "eu",
    .removeWorkerFromGroup 3, .getWorker "eu"]

/-- Where the workers of the example were built for. -/
def builtFor (w : WorkerId) : GroupName := if w < 3 then "eu" else "us"

theorem round_robin_fair_stretch :
    let s := after (start builtFor) joined
    members s.groups "eu" = [0, 1, 2] ∧ answers "eu" s stretch = [some 2, some 0, some 1, some 2] ∧
      Fair [0, 1, 2] [some 2, some 0, some 1, some 2] := by
  have hmembers : members (after (start builtFor) joined).groups "eu" = [0, 1, 2] := by
    decide +kernel
  have hanswers : answers "eu" (after (start builtFor) joined) stretch =
      [some 2, some 0, some 1, some 2] := by decide +kernel
  have hsteady : Steady "eu" (after (start builtFor) joined) stretch := by
    refine ⟨?_, ?_, ?_, ?_, ?_, ?_, ?_, trivial⟩ <;> decide +kernel
  refine ⟨hmembers, hanswers, ?_⟩
  have hfair := ((round_robin_fair builtFor joined).2.2.2.2.2.2 "eu" stretch
    (by rw [hmembers]; decide) (by rw [hmembers]; decide) hsteady).2
  rwa [hmembers, hanswers] at hfair

end SplitProxy.WorkerRegistry
