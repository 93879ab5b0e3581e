import Mathlib.Data.List.Induction
import Mathlib.Logic.Function.Basic

/-!
# Tries over label paths

A trie maps paths of labels to values; an absent subtree is `nil`. Walking down
a path collects the values met on the way, so the deepest of them is the value
of the longest stored path that begins the given one.
-/
namespace SplitProxy

inductive LabelTrie (κ β : Type) where
  | nil
  | node (value : Option β) (child : κ → LabelTrie κ β)

namespace LabelTrie

variable {κ β : Type}

/-- The value at a node, none at an absent one. -/
def value : LabelTrie κ β → Option β
  | nil => none
  | node v _ => v

def child : LabelTrie κ β → κ → LabelTrie κ β
  | nil, _ => nil
  | node _ c, k => c k

/-- A node that exists, even where the trie is absent. -/
def touched : LabelTrie κ β → LabelTrie κ β
  | nil => node none (fun _ => nil)
  | node v c => node v c

@[simp] theorem value_touched (t : LabelTrie κ β) : t.touched.value = t.value := by
  cases t <;> rfl

@[simp] theorem child_touched (t : LabelTrie κ β) : t.touched.child = t.child := by
  cases t <;> rfl

/-- The value stored under exactly this path. -/
def find : LabelTrie κ β → List κ → Option β
  | t, [] => t.value
  | t, k :: ks => (t.child k).find ks

@[simp] theorem find_nil_path (t : LabelTrie κ β) : t.find [] = t.value := by
  cases t <;> rfl

@[simp] theorem find_cons (t : LabelTrie κ β) (k : κ) (ks : List κ) :
    t.find (k :: ks) = (t.child k).find ks := by
  cases t <;> rfl

@[simp] theorem find_nil (ks : List κ) : (nil : LabelTrie κ β).find ks = none := by
  induction ks with
  | nil => rfl
  | cons k ks ih => simpa [child] using ih

section Insert

variable [DecidableEq κ]

/-- Create the nodes along the path; the last one gets the value, if one is given. -/
def extend : LabelTrie κ β → List κ → Option β → LabelTrie κ β
  | t, [], none => t.touched
  | nil, [], some b => node (some b) (fun _ => nil)
  | node _ c, [], some b => node (some b) c
  | nil, k :: ks, b => node none (Function.update (fun _ => nil) k (nil.extend ks b))
  | node v c, k :: ks, b => node v (Function.update c k ((c k).extend ks b))

def insert (t : LabelTrie κ β) (path : List κ) (b : β) : LabelTrie κ β := t.extend path (some b)

theorem extend_cons (t : LabelTrie κ β) (k : κ) (ks : List κ) (b : Option β) :
    t.extend (k :: ks) b =
      node t.value (Function.update t.child k ((t.child k).extend ks b)) := by
  cases t with
  | nil => rw [extend]; rfl
  | node v c => rw [extend]; rfl

theorem extend_nil_none (t : LabelTrie κ β) : t.extend [] none = t.touched := by
  cases t <;> rw [extend]

theorem extend_nil_some (t : LabelTrie κ β) (b : β) :
    t.extend [] (some b) = node (some b) t.child := by
  cases t with
  | nil => rw [extend]; rfl
  | node v c => rw [extend]; rfl

/-- Extending a path changes what is stored under that path, and only there. -/
theorem find_extend (t : LabelTrie κ β) (path q : List κ) (b : Option β) :
    (t.extend path b).find q = if q = path then b.or (t.find q) else t.find q := by
  induction path generalizing t q with
  | nil =>
    cases b with
    | none =>
      rw [extend_nil_none]
      cases q <;> simp
    | some b =>
      rw [extend_nil_some]
      cases q <;> simp [value, child]
  | cons k ks ih =>
    rw [extend_cons]
    cases q with
    | nil => simp [value]
    | cons l ls =>
      by_cases hl : l = k
      · subst hl
        simp [child, ih]
      · simp [child, hl]

theorem find_insert (t : LabelTrie κ β) (path q : List κ) (b : β) :
    (t.insert path b).find q = if q = path then some b else t.find q := by
  rw [insert, find_extend]
  rfl

theorem extend_nil_comm (t : LabelTrie κ β) (l : κ) (ls : List κ) (a b : Option β) :
    (t.extend [] a).extend (l :: ls) b = (t.extend (l :: ls) b).extend [] a := by
  cases a <;> cases t <;> rfl

/-- Two insertions commute unless they store different values under one path. -/
theorem extend_comm (t : LabelTrie κ β) (p q : List κ) (a b : Option β)
    (h : p = q → a = none ∨ b = none ∨ a = b) :
    (t.extend p a).extend q b = (t.extend q b).extend p a := by
  induction p generalizing t q with
  | nil =>
    cases q with
    | nil =>
      rcases h rfl with rfl | rfl | rfl
      · cases b <;> cases t <;> rfl
      · cases a <;> cases t <;> rfl
      · rfl
    | cons l ls => exact extend_nil_comm t l ls a b
  | cons k ks ih =>
    cases q with
    | nil => exact (extend_nil_comm t k ks b a).symm
    | cons l ls =>
      rw [extend_cons, extend_cons t, extend_cons, extend_cons]
      change node t.value (Function.update (Function.update t.child k ((t.child k).extend ks a)) l
          ((Function.update t.child k ((t.child k).extend ks a) l).extend ls b)) =
        node t.value (Function.update (Function.update t.child l ((t.child l).extend ls b)) k
          ((Function.update t.child l ((t.child l).extend ls b) k).extend ks a))
      by_cases hkl : k = l
      · subst hkl
        have hks := ih (t.child k) ls fun he => h (by rw [he])
        rw [Function.update_self, Function.update_self, Function.update_idem,
          Function.update_idem, hks]
      · rw [Function.update_of_ne (Ne.symm hkl), Function.update_of_ne hkl,
          Function.update_comm hkl]

theorem insert_comm (t : LabelTrie κ β) (p q : List κ) (a b : β) (h : p = q → a = b) :
    (t.insert p a).insert q b = (t.insert q b).insert p a :=
  extend_comm t p q (some a) (some b) fun he => Or.inr (Or.inr (congrArg some (h he)))

end Insert

/-! ## Histories of insertions -/

section History

variable [DecidableEq κ] {ρ : Type} {path : ρ → Option (List κ)} {val : ρ → β}
  {stored : List ρ → List κ → Option β}

/-- When each rule of a history overwrites its own path, if it has one, what is
stored under a path is the value of the last rule with that path. -/
theorem last_wins (h0 : ∀ q, stored [] q = none)
    (hstep : ∀ rules r q, stored (rules ++ [r]) q =
      if path r = some q then some (val r) else stored rules q)
    (rules : List ρ) (q : List κ) (b : β) :
    stored rules q = some b ↔ ∃ before r after, rules = before ++ r :: after ∧
      path r = some q ∧ val r = b ∧ ∀ x ∈ after, path x ≠ some q := by
  induction rules using List.reverseRecOn with
  | nil => simp [h0]
  | append_singleton rules r ih =>
    rw [hstep]
    by_cases hr : path r = some q
    · rw [if_pos hr]
      constructor
      · intro hb
        cases hb
        exact ⟨rules, r, [], rfl, hr, rfl, by simp⟩
      · rintro ⟨before, x, after, he, -, hv, hlast⟩
        rcases List.eq_nil_or_concat after with rfl | ⟨after', y, rfl⟩
        · have hx := (List.append_inj' he rfl).2
          cases hx
          rw [hv]
        · rw [List.concat_eq_append, ← List.cons_append, ← List.append_assoc] at he
          have hy := (List.append_inj' he rfl).2
          cases hy
          exact absurd hr (hlast r (by simp))
    · rw [if_neg hr, ih]
      constructor
      · rintro ⟨before, x, after, he, hx, hv, hlast⟩
        refine ⟨before, x, after ++ [r], by rw [he]; simp, hx, hv, fun y hy => ?_⟩
        rcases List.mem_append.mp hy with hy | hy
        · exact hlast y hy
        · rw [List.mem_singleton.mp hy]
          exact hr
      · rintro ⟨before, x, after, he, hx, hv, hlast⟩
        rcases List.eq_nil_or_concat after with rfl | ⟨after', y, rfl⟩
        · have hxr := (List.append_inj' he rfl).2
          cases hxr
          exact absurd hx hr
        · rw [List.concat_eq_append, ← List.cons_append, ← List.append_assoc] at he
          have hb := (List.append_inj' he rfl).1
          exact ⟨before, x, after', hb, hx, hv, fun z hz => hlast z (by simp [hz])⟩

theorem none_stored (h0 : ∀ q, stored [] q = none)
    (hstep : ∀ rules r q, stored (rules ++ [r]) q =
      if path r = some q then some (val r) else stored rules q)
    (rules : List ρ) (q : List κ) :
    stored rules q = none ↔ ∀ r ∈ rules, path r ≠ some q := by
  induction rules using List.reverseRecOn with
  | nil => simp [h0]
  | append_singleton rules r ih =>
    rw [hstep]
    by_cases hr : path r = some q
    · simp [hr]
    · rw [if_neg hr, ih]
      constructor
      · intro h x hx
        rcases List.mem_append.mp hx with hx | hx
        · exact h x hx
        · rw [List.mem_singleton.mp hx]
          exact hr
      · exact fun h x hx => h x (List.mem_append_left _ hx)

end History

/-! ## The longest stored path -/

/-- Walk down the path, keeping the deepest value met and its depth. -/
def walk : LabelTrie κ β → List κ → Nat → Option (β × Nat) → Option (β × Nat)
  | _, [], _, best => best
  | t, k :: ks, depth, best =>
    match t.child k with
    | nil => best
    | node v c => (node v c).walk ks (depth + 1) ((v.map (·, depth + 1)).or best)

/-- The value of the longest stored path beginning `path`, and its length. -/
def longest (t : LabelTrie κ β) (path : List κ) : Option (β × Nat) :=
  t.walk path 0 (t.value.map (·, 0))

/-- `b` is stored under the first `n` labels of `path`, and nothing under more of them. -/
structure IsLongest (t : LabelTrie κ β) (path : List κ) (b : β) (n : Nat) : Prop where
  le : n ≤ path.length
  stored : t.find (path.take n) = some b
  maximal : ∀ m, n < m → m ≤ path.length → t.find (path.take m) = none

/-- The walk answers with the deepest value below, or the best it came with. -/
theorem walk_spec (t : LabelTrie κ β) (path : List κ) (depth : Nat) (best : Option (β × Nat)) :
    (∃ b n, 0 < n ∧ IsLongest t path b n ∧ t.walk path depth best = some (b, depth + n)) ∨
    ((∀ n, 0 < n → n ≤ path.length → t.find (path.take n) = none) ∧
      t.walk path depth best = best) := by
  induction path generalizing t depth best with
  | nil =>
    right
    refine ⟨fun n hn hle => ?_, ?_⟩
    · rw [List.length_nil] at hle
      omega
    · cases t <;> rfl
  | cons k ks ih =>
    cases hc : t.child k with
    | nil =>
      right
      refine ⟨fun n hn _ => ?_, by rw [walk, hc]⟩
      obtain ⟨m, rfl⟩ := Nat.exists_eq_succ_of_ne_zero (Nat.pos_iff_ne_zero.mp hn)
      rw [List.take_succ_cons, find_cons, hc, find_nil]
    | node v c =>
      have hw : t.walk (k :: ks) depth best =
          (node v c).walk ks (depth + 1) ((v.map (·, depth + 1)).or best) := by
        rw [walk, hc]
      have hfind : ∀ m, t.find ((k :: ks).take (m + 1)) = (node v c).find (ks.take m) := by
        intro m
        rw [List.take_succ_cons, find_cons, hc]
      rcases ih (node v c) (depth + 1) ((v.map (·, depth + 1)).or best) with
        ⟨b, n, hn, hl, he⟩ | ⟨hnone, he⟩
      · left
        refine ⟨b, n + 1, Nat.succ_pos n, ⟨Nat.succ_le_succ hl.le, ?_, fun m hm hle => ?_⟩, ?_⟩
        · rw [hfind]
          exact hl.stored
        · obtain ⟨m, rfl⟩ := Nat.exists_eq_succ_of_ne_zero (show m ≠ 0 by omega)
          rw [hfind]
          exact hl.maximal m (by omega) (Nat.le_of_succ_le_succ hle)
        · rw [hw, he]
          congr 2
          omega
      · cases v with
        | none =>
          right
          refine ⟨fun n hn hle => ?_, by rw [hw, he]; rfl⟩
          obtain ⟨m, rfl⟩ := Nat.exists_eq_succ_of_ne_zero (Nat.pos_iff_ne_zero.mp hn)
          rw [hfind]
          cases m with
          | zero => rfl
          | succ m => exact hnone _ (Nat.succ_pos m) (Nat.le_of_succ_le_succ hle)
        | some b =>
          left
          refine ⟨b, 1, Nat.one_pos, ⟨Nat.succ_le_succ (Nat.zero_le _), ?_, fun m hm hle => ?_⟩, ?_⟩
          · rw [hfind]
            rfl
          · obtain ⟨m, rfl⟩ := Nat.exists_eq_succ_of_ne_zero (show m ≠ 0 by omega)
            rw [hfind]
            exact hnone m (by omega) (Nat.le_of_succ_le_succ hle)
          · rw [hw, he]
            rfl

/-- The walk from the root finds the longest stored beginning of the path. -/
theorem longest_some {t : LabelTrie κ β} {path : List κ} {b : β} {n : Nat} :
    t.longest path = some (b, n) ↔ IsLongest t path b n := by
  have hroot : t.find (path.take 0) = t.value := by simp
  constructor
  · intro h
    rcases walk_spec t path 0 (t.value.map (·, 0)) with ⟨b', n', -, hl, he⟩ | ⟨hnone, he⟩
    · rw [longest, he, Nat.zero_add] at h
      cases h
      exact hl
    · rw [longest, he, Option.map_eq_some_iff] at h
      obtain ⟨v, hv, he⟩ := h
      cases he
      exact ⟨Nat.zero_le _, by rw [hroot, hv], fun m hm hle => hnone m hm hle⟩
  · intro hl
    rcases walk_spec t path 0 (t.value.map (·, 0)) with ⟨b', n', hn', hl', he⟩ | ⟨hnone, he⟩
    · rw [longest, he, Nat.zero_add]
      have hnn : n' = n := by
        rcases Nat.lt_trichotomy n' n with h | h | h
        · have := hl'.maximal n h hl.le
          rw [hl.stored] at this
          cases this
        · exact h
        · have := hl.maximal n' h hl'.le
          rw [hl'.stored] at this
          cases this
      subst hnn
      have hb := hl'.stored
      rw [hl.stored] at hb
      cases hb
      rfl
    · have hn : n = 0 := by
        by_contra hne
        have := hnone n (Nat.pos_of_ne_zero hne) hl.le
        rw [hl.stored] at this
        cases this
      subst hn
      have hs := hl.stored
      rw [hroot] at hs
      rw [longest, he, hs]
      rfl

theorem longest_none {t : LabelTrie κ β} {path : List κ} :
    t.longest path = none ↔ ∀ n, n ≤ path.length → t.find (path.take n) = none := by
  have hroot : t.find (path.take 0) = t.value := by simp
  constructor
  · intro h n hle
    rcases walk_spec t path 0 (t.value.map (·, 0)) with ⟨b', n', -, -, he⟩ | ⟨hnone, he⟩
    · rw [longest, he] at h
      cases h
    · rcases Nat.eq_zero_or_pos n with rfl | hn
      · rw [longest, he, Option.map_eq_none_iff] at h
        rw [hroot, h]
      · exact hnone n hn hle
  · intro h
    cases hb : t.longest path with
    | none => rfl
    | some r =>
      obtain ⟨b, n⟩ := r
      have hl := longest_some.mp hb
      have := h n hl.le
      rw [hl.stored] at this
      cases this

/-- The longest match is a matter of what is stored along the path. -/
theorem longest_congr {t u : LabelTrie κ β} {path : List κ}
    (h : ∀ n, n ≤ path.length → t.find (path.take n) = u.find (path.take n)) :
    t.longest path = u.longest path := by
  cases hu : u.longest path with
  | none =>
    rw [longest_none] at hu ⊢
    intro n hn
    rw [h n hn, hu n hn]
  | some r =>
    obtain ⟨b, n⟩ := r
    rw [longest_some] at hu ⊢
    refine ⟨hu.le, by rw [h n hu.le, hu.stored], fun m hm hle => ?_⟩
    rw [h m hle, hu.maximal m hm hle]

/-! ## Nodes -/

/-- There is a node under this path, with or without a value. -/
def Has (t : LabelTrie κ β) (path : List κ) : Prop := path.foldl child t ≠ nil

@[simp] theorem has_cons (t : LabelTrie κ β) (k : κ) (ks : List κ) :
    t.Has (k :: ks) ↔ (t.child k).Has ks := Iff.rfl

@[simp] theorem has_node (v : Option β) (c : κ → LabelTrie κ β) : (node v c).Has [] := nofun

theorem not_has_nil (path : List κ) : ¬(nil : LabelTrie κ β).Has path := by
  induction path with
  | nil => exact fun h => h rfl
  | cons k ks ih => exact ih

/-- Extending a path makes the nodes along it. -/
theorem has_extend [DecidableEq κ] (t : LabelTrie κ β) (path q : List κ) (b : Option β) :
    (t.extend path b).Has q ↔ t.Has q ∨ q <+: path := by
  induction path generalizing t q with
  | nil =>
    cases b with
    | none =>
      rw [extend_nil_none]
      cases q with
      | nil => cases t <;> simp [touched]
      | cons l ls => simp
    | some b =>
      rw [extend_nil_some]
      cases q with
      | nil => simp
      | cons l ls => simp [child]
  | cons k ks ih =>
    rw [extend_cons]
    cases q with
    | nil => simp
    | cons l ls =>
      rw [has_cons, has_cons, List.cons_prefix_cons]
      by_cases hl : l = k
      · subst hl
        simp [child, ih]
      · simp [child, hl]

end LabelTrie

end SplitProxy
