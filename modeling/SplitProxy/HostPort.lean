import SplitProxy.GoText

/-!
# Hosts and ports

`net.SplitHostPort` and `net.JoinHostPort`, read off the last colon and the
brackets of a string.
-/
namespace SplitProxy

namespace GoText

def colon : UInt8 := 0x3A
def percent : UInt8 := 0x25
def openBracket : UInt8 := 0x5B
def closeBracket : UInt8 := 0x5D

/-- The string before and after the first such byte. -/
def splitFirst (c : UInt8) : Bytes → Option (Bytes × Bytes)
  | [] => none
  | b :: s => if b = c then some ([], s) else (splitFirst c s).map (fun p => (b :: p.1, p.2))

/-- The string before and after the last such byte. -/
def splitLast (c : UInt8) : Bytes → Option (Bytes × Bytes)
  | [] => none
  | b :: s =>
    match splitLast c s with
    | some (x, y) => some (b :: x, y)
    | none => if b = c then some ([], s) else none

/-- `net.SplitHostPort`: the port follows the last colon, a host in brackets ends
just before it, and no bracket stands anywhere else. -/
def splitHostPort (s : Bytes) : Option (Bytes × Bytes) :=
  match splitLast colon s with
  | none => none
  | some (before, port) =>
    if s.head? = some openBracket then
      match splitFirst closeBracket before with
      | some (bracketed, []) =>
        if openBracket ∈ s.drop 1 ∨ closeBracket ∈ port then none
        else some (bracketed.drop 1, port)
      | _ => none
    else if colon ∈ before then none
    else if openBracket ∈ s ∨ closeBracket ∈ s then none
    else some (before, port)

/-- `net.JoinHostPort`: brackets around a host with colons. -/
def joinHostPort (host port : Bytes) : Bytes :=
  if colon ∈ host then openBracket :: host ++ closeBracket :: colon :: port
  else host ++ colon :: port

theorem splitFirst_append {c : UInt8} {x : Bytes} (h : c ∉ x) (y : Bytes) :
    splitFirst c (x ++ c :: y) = some (x, y) := by
  induction x with
  | nil => simp [splitFirst]
  | cons b x ih =>
    have hb : b ≠ c := fun he => h (he ▸ List.mem_cons_self)
    rw [List.cons_append, splitFirst, if_neg hb, ih (fun hc => h (List.mem_cons_of_mem b hc))]
    rfl

theorem splitFirst_some {c : UInt8} {s x y : Bytes} (h : splitFirst c s = some (x, y)) :
    s = x ++ c :: y ∧ c ∉ x := by
  induction s generalizing x with
  | nil => cases h
  | cons b s ih =>
    rw [splitFirst] at h
    by_cases hb : b = c
    · rw [if_pos hb] at h
      cases h
      exact ⟨by rw [hb]; rfl, by simp⟩
    · rw [if_neg hb] at h
      obtain ⟨p, hp, he⟩ := Option.map_eq_some_iff.mp h
      cases he
      obtain ⟨hs, hc⟩ := ih hp
      refine ⟨by rw [hs]; rfl, ?_⟩
      simp only [List.mem_cons, not_or]
      exact ⟨fun he => hb he.symm, hc⟩

theorem splitFirst_none {c : UInt8} {s : Bytes} : splitFirst c s = none ↔ c ∉ s := by
  induction s with
  | nil => simp [splitFirst]
  | cons b s ih =>
    by_cases hb : b = c
    · simp [splitFirst, hb]
    · have hcb : c ≠ b := fun h => hb h.symm
      simp [splitFirst, hb, ih, hcb]

theorem splitLast_none {c : UInt8} {s : Bytes} : splitLast c s = none ↔ c ∉ s := by
  induction s with
  | nil => simp [splitLast]
  | cons b s ih =>
    rw [splitLast]
    cases hs : splitLast c s with
    | some p =>
      have : c ∈ s := by
        by_contra hc
        rw [ih.mpr hc] at hs
        cases hs
      simp [this]
    | none =>
      have := ih.mp hs
      by_cases hb : b = c
      · simp [hb]
      · have hcb : c ≠ b := fun h => hb h.symm
        simp [hb, this, hcb]

theorem splitLast_append {c : UInt8} {y : Bytes} (h : c ∉ y) (x : Bytes) :
    splitLast c (x ++ c :: y) = some (x, y) := by
  induction x with
  | nil => simp [splitLast, splitLast_none.mpr h]
  | cons b x ih => rw [List.cons_append, splitLast, ih]

theorem splitLast_some {c : UInt8} {s x y : Bytes} (h : splitLast c s = some (x, y)) :
    s = x ++ c :: y ∧ c ∉ y := by
  induction s generalizing x with
  | nil => cases h
  | cons b s ih =>
    rw [splitLast] at h
    cases hs : splitLast c s with
    | some p =>
      rw [hs] at h
      cases h
      obtain ⟨he, hc⟩ := ih hs
      exact ⟨by rw [he]; rfl, hc⟩
    | none =>
      rw [hs] at h
      simp only at h
      split at h
      · rename_i hb
        cases h
        exact ⟨by rw [hb]; rfl, splitLast_none.mp hs⟩
      · cases h

/-- A port as it may be appended to a host. -/
def PortText (port : Bytes) : Prop := ∀ b ∈ port, b ≠ colon ∧ b ≠ openBracket ∧ b ≠ closeBracket

theorem PortText.colon {port : Bytes} (h : PortText port) : GoText.colon ∉ port :=
  fun hc => (h _ hc).1 rfl

/-- A bracketed host comes back without its brackets. -/
theorem splitHostPort_brackets {host port : Bytes} (hp : PortText port)
    (ho : openBracket ∉ host) (hc : closeBracket ∉ host) :
    splitHostPort (openBracket :: host ++ closeBracket :: colon :: port) = some (host, port) := by
  have hl : splitLast colon (openBracket :: host ++ closeBracket :: colon :: port) =
      some (openBracket :: host ++ [closeBracket], port) := by
    rw [← splitLast_append hp.colon (openBracket :: host ++ [closeBracket])]
    simp
  have hf : splitFirst closeBracket (openBracket :: host ++ [closeBracket]) =
      some (openBracket :: host, []) := by
    refine splitFirst_append ?_ []
    simp only [List.mem_cons, not_or]
    exact ⟨by decide, hc⟩
  have hno : ¬(openBracket ∈ host ++ closeBracket :: colon :: port ∨ closeBracket ∈ port) := by
    simp only [List.mem_append, List.mem_cons, not_or]
    exact ⟨⟨ho, by decide, by decide, fun h => (hp _ h).2.1 rfl⟩, fun h => (hp _ h).2.2 rfl⟩
  rw [splitHostPort, hl]
  simp only [List.cons_append, List.head?_cons, ↓reduceIte]
  rw [List.cons_append] at hf
  simp only [hf, List.drop_succ_cons, List.drop_zero, if_neg hno]

/-- A host without colons and brackets is what stands before the colon. -/
theorem splitHostPort_plain {host port : Bytes} (hp : PortText port) (hh : PortText host) :
    splitHostPort (host ++ colon :: port) = some (host, port) := by
  have hhead : ¬(host ++ colon :: port).head? = some openBracket := by
    cases host with
    | nil => simp [colon, openBracket]
    | cons b host =>
      simp only [List.cons_append, List.head?_cons, Option.some.injEq]
      exact (hh b List.mem_cons_self).2.1
  have hno : ¬(openBracket ∈ host ++ colon :: port ∨ closeBracket ∈ host ++ colon :: port) := by
    simp only [List.mem_append, List.mem_cons, not_or]
    exact ⟨⟨fun h => (hh _ h).2.1 rfl, by decide, fun h => (hp _ h).2.1 rfl⟩,
      fun h => (hh _ h).2.2 rfl, by decide, fun h => (hp _ h).2.2 rfl⟩
  rw [splitHostPort, splitLast_append hp.colon]
  simp only [hhead, hh.colon, hno, ↓reduceIte]

/-- Without a colon there is no port. -/
theorem splitHostPort_no_colon {s : Bytes} (h : colon ∉ s) : splitHostPort s = none := by
  rw [splitHostPort, splitLast_none.mpr h]

/-- One colon, and no brackets. -/
def HasPort (s : Bytes) : Prop := s.count colon = 1 ∧ openBracket ∉ s ∧ closeBracket ∉ s

instance (s : Bytes) : Decidable (HasPort s) := inferInstanceAs (Decidable (_ ∧ _))

/-- With no bracket in front, a host and port is told by these. -/
theorem splitHostPort_none_iff {s : Bytes} (hb : s.head? ≠ some openBracket) :
    splitHostPort s = none ↔ ¬HasPort s := by
  unfold HasPort
  cases hs : splitLast colon s with
  | none =>
    have hc : s.count colon = 0 := List.count_eq_zero.mpr (splitLast_none.mp hs)
    simp [splitHostPort, hs, hc]
  | some p =>
    obtain ⟨x, y⟩ := p
    obtain ⟨he, hy⟩ := splitLast_some hs
    have hcount : s.count colon = x.count colon + 1 := by
      rw [he, List.count_append, List.count_cons_self, List.count_eq_zero.mpr hy]
    have hx : s.count colon = 1 ↔ colon ∉ x := by
      rw [hcount, ← List.count_eq_zero]
      omega
    rw [splitHostPort, hs, hx]
    simp only [hb, ↓reduceIte]
    by_cases hcx : colon ∈ x
    · simp [hcx]
    · by_cases hno : openBracket ∈ s ∨ closeBracket ∈ s
      · simp only [hcx, hno, ↓reduceIte, not_false_eq_true, true_and, ← not_or, not_true_eq_false]
      · simp only [hcx, hno, ↓reduceIte, not_false_eq_true, true_and, ← not_or, not_true_eq_false,
          reduceCtorEq]

/-- With no bracket in front, the host is what stands before the only colon. -/
theorem splitHostPort_unbracketed {s host port : Bytes} (hb : s.head? ≠ some openBracket)
    (h : splitHostPort s = some (host, port)) : s = host ++ colon :: port ∧ colon ∉ host := by
  unfold splitHostPort at h
  cases hs : splitLast colon s with
  | none =>
    rw [hs] at h
    cases h
  | some p =>
    obtain ⟨x, y⟩ := p
    rw [hs] at h
    simp only [hb, ↓reduceIte, Option.ite_none_left_eq_some, Option.some.injEq, Prod.mk.injEq] at h
    obtain ⟨hx, -, rfl, rfl⟩ := h
    exact ⟨(splitLast_some hs).1, hx⟩

/-- Neither part holds a bracket, and the port no colon. -/
theorem splitHostPort_some {s host port : Bytes} (h : splitHostPort s = some (host, port)) :
    openBracket ∉ host ∧ closeBracket ∉ host ∧ PortText port := by
  unfold splitHostPort at h
  cases hs : splitLast colon s with
  | none =>
    rw [hs] at h
    cases h
  | some p =>
    obtain ⟨x, y⟩ := p
    obtain ⟨he, hy⟩ := splitLast_some hs
    rw [hs] at h
    simp only at h
    by_cases hb : s.head? = some openBracket
    · rw [if_pos hb] at h
      cases hf : splitFirst closeBracket x with
      | none =>
        rw [hf] at h
        cases h
      | some q =>
        obtain ⟨u, v⟩ := q
        cases v with
        | cons c v =>
          rw [hf] at h
          cases h
        | nil =>
          obtain ⟨hx, hu⟩ := splitFirst_some hf
          rw [hf] at h
          simp only at h
          by_cases hno : openBracket ∈ s.drop 1 ∨ closeBracket ∈ y
          · rw [if_pos hno] at h
            cases h
          · rw [if_neg hno] at h
            cases h
            rw [not_or] at hno
            have hdrop : s.drop 1 = u.drop 1 ++ closeBracket :: colon :: port := by
              cases u with
              | nil =>
                rw [he, hx] at hb
                cases hb
              | cons c u =>
                rw [he, hx]
                simp
            rw [hdrop] at hno
            simp only [List.mem_append, List.mem_cons, not_or] at hno
            refine ⟨hno.1.1, fun hc => hu (List.mem_of_mem_drop hc), fun b hb' => ⟨?_, ?_, ?_⟩⟩
            · exact fun hbc => hy (hbc ▸ hb')
            · exact fun hbc => hno.1.2.2.2 (hbc ▸ hb')
            · exact fun hbc => hno.2 (hbc ▸ hb')
    · rw [if_neg hb] at h
      by_cases hc : colon ∈ x
      · rw [if_pos hc] at h
        cases h
      · rw [if_neg hc] at h
        by_cases hno : openBracket ∈ s ∨ closeBracket ∈ s
        · rw [if_pos hno] at h
          cases h
        · rw [if_neg hno] at h
          cases h
          rw [not_or, he] at hno
          simp only [List.mem_append, List.mem_cons, not_or] at hno
          refine ⟨hno.1.1, hno.2.1, fun b hb' => ⟨?_, ?_, ?_⟩⟩
          · exact fun hbc => hy (hbc ▸ hb')
          · exact fun hbc => hno.1.2.2 (hbc ▸ hb')
          · exact fun hbc => hno.2.2.2 (hbc ▸ hb')

/-! ## What is joined is split -/

theorem splitHostPort_joined {host port : Bytes} (hp : PortText port)
    (ho : openBracket ∉ host) (hc : closeBracket ∉ host) :
    splitHostPort (joinHostPort host port) = some (host, port) := by
  rw [joinHostPort]
  by_cases hcolon : colon ∈ host
  · rw [if_pos hcolon]
    exact splitHostPort_brackets hp ho hc
  · rw [if_neg hcolon]
    refine splitHostPort_plain hp fun b hb => ⟨?_, ?_, ?_⟩
    · exact fun he => hcolon (he ▸ hb)
    · exact fun he => ho (he ▸ hb)
    · exact fun he => hc (he ▸ hb)

/-- A bracket inside the host makes the text useless. -/
theorem splitHostPort_bracketed {host port : Bytes} (hp : PortText port) (hcolon : colon ∈ host)
    (hb : openBracket ∈ host ∨ closeBracket ∈ host) :
    splitHostPort (joinHostPort host port) = none := by
  have hs : joinHostPort host port = openBracket :: (host ++ [closeBracket]) ++ colon :: port := by
    simp [joinHostPort, hcolon]
  rw [splitHostPort, hs, splitLast_append hp.colon]
  simp only [List.cons_append, List.head?_cons, ↓reduceIte, List.drop_succ_cons, List.drop_zero]
  by_cases hc : closeBracket ∈ host
  · obtain ⟨u, v, rfl, hu⟩ := List.eq_append_cons_of_mem hc
    have hf : splitFirst closeBracket (openBracket :: (u ++ closeBracket :: v ++ [closeBracket])) =
        some (openBracket :: u, v ++ [closeBracket]) := by
      have ho : closeBracket ∉ openBracket :: u := by
        simp only [List.mem_cons, not_or]
        exact ⟨by decide, hu⟩
      rw [← splitFirst_append ho]
      simp
    rw [hf]
    cases v with
    | nil => rfl
    | cons b v => rfl
  · have hf : splitFirst closeBracket (openBracket :: (host ++ [closeBracket])) =
        some (openBracket :: host, []) := by
      refine @splitFirst_append closeBracket (openBracket :: host) ?_ []
      simp only [List.mem_cons, not_or]
      exact ⟨by decide, hc⟩
    have ho : openBracket ∈ host ++ [closeBracket] ++ colon :: port := by
      simp [hb.resolve_right hc]
    rw [hf]
    simp only [ho, true_or, ↓reduceIte]

/-- A joined host comes back unless it holds brackets, and without them when they
stand around it. -/
theorem splitHostPort_join_iff {host port h q : Bytes} (hp : PortText port) :
    splitHostPort (joinHostPort host port) = some (h, q) ↔
      q = port ∧ openBracket ∉ h ∧ closeBracket ∉ h ∧
        (host = h ∨ colon ∉ h ∧ host = openBracket :: h ++ [closeBracket]) := by
  constructor
  · intro hs
    obtain ⟨ho, hc, -⟩ := splitHostPort_some hs
    by_cases hplain : openBracket ∈ host ∨ closeBracket ∈ host
    · have hcolon : colon ∉ host := by
        intro hcolon
        rw [splitHostPort_bracketed hp hcolon hplain] at hs
        cases hs
      rw [joinHostPort, if_neg hcolon] at hs
      unfold splitHostPort at hs
      rw [splitLast_append hp.colon] at hs
      simp only [hcolon, ↓reduceIte] at hs
      have hany : openBracket ∈ host ++ colon :: port ∨ closeBracket ∈ host ++ colon :: port :=
        hplain.imp (List.mem_append_left _) (List.mem_append_left _)
      by_cases hhead : (host ++ colon :: port).head? = some openBracket
      · rw [if_pos hhead] at hs
        cases hf : splitFirst closeBracket host with
        | none =>
          rw [hf] at hs
          cases hs
        | some p =>
          obtain ⟨u, v⟩ := p
          obtain ⟨rfl, hu⟩ := splitFirst_some hf
          rw [hf] at hs
          cases v with
          | cons b v => cases hs
          | nil =>
            obtain ⟨-, hres⟩ := Option.ite_none_left_eq_some.mp hs
            cases hres
            cases u with
            | nil => cases hhead
            | cons b u =>
              cases hhead
              refine ⟨rfl, ho, hc, Or.inr ⟨fun hm => hcolon ?_, rfl⟩⟩
              simp only [List.mem_append, List.mem_cons]
              exact Or.inl (Or.inr hm)
      · rw [if_neg hhead, if_pos hany] at hs
        cases hs
    · rw [not_or] at hplain
      rw [splitHostPort_joined hp hplain.1 hplain.2] at hs
      cases hs
      exact ⟨rfl, ho, hc, Or.inl rfl⟩
  · rintro ⟨rfl, ho, hc, rfl | ⟨hcolon, rfl⟩⟩
    · exact splitHostPort_joined hp ho hc
    · have hnot : colon ∉ openBracket :: h ++ [closeBracket] := by
        simp only [List.mem_append, List.mem_cons, List.not_mem_nil, or_false, not_or]
        exact ⟨⟨by decide, hcolon⟩, by decide⟩
      rw [joinHostPort, if_neg hnot, List.append_assoc, List.singleton_append]
      exact splitHostPort_brackets hp ho hc

end GoText

end SplitProxy
