import SplitProxy.HostPort
import SplitProxy.NetIP

/-!
# Reading addresses

`netip.ParseAddr`: dotted decimals, and hexadecimal groups with at most one
ellipsis, an IPv4 tail and a zone. Errors carry no more than that there is one.
-/
namespace SplitProxy.NetIP

open GoText

/-- The number a list of digits stands for. -/
def ofDigits (base : Nat) (ds : List Nat) : Nat := ds.foldl (fun n d => n * base + d) 0

def isDigit (c : UInt8) : Bool := 0x30 ≤ c.toNat ∧ c.toNat ≤ 0x39

/-- The loop of `parseIPv4Fields`: the field so far with its number of digits, and
the fields before it. A dot with no digit before it begins or follows a dot. -/
def parseFields : Nat → Nat → List Nat → Bytes → Option (List Nat)
  | val, _, fields, [] => if fields.length < 3 then none else some (fields ++ [val])
  | val, digLen, fields, c :: s =>
    if isDigit c then
      if digLen = 1 ∧ val = 0 then none
      else
        let val := val * 10 + (c.toNat - 0x30)
        if 255 < val then none else parseFields val (digLen + 1) fields s
    else if c = dot then
      if digLen = 0 ∨ s = [] then none
      else if fields.length = 3 then none
      else parseFields 0 0 (fields ++ [val]) s
    else none

def parseIPv4Fields (s : Bytes) : Option (List Nat) := parseFields 0 0 [] s

def parseIPv4 (s : Bytes) : Option Addr :=
  (parseIPv4Fields s).map (fun fields => .v4 (BitVec.ofNat 32 (ofDigits 0x100 fields)))

def hexVal (c : UInt8) : Option Nat :=
  if 0x30 ≤ c.toNat ∧ c.toNat ≤ 0x39 then some (c.toNat - 0x30)
  else if 0x61 ≤ c.toNat ∧ c.toNat ≤ 0x66 then some (c.toNat - 0x61 + 10)
  else if 0x41 ≤ c.toNat ∧ c.toNat ≤ 0x46 then some (c.toNat - 0x41 + 10)
  else none

/-- The hexadecimal number in front: its digits counted, its value, what follows. -/
def readHex : Nat → Nat → Bytes → Option (Nat × Nat × Bytes)
  | off, acc, [] => some (off, acc, [])
  | off, acc, c :: s =>
    match hexVal c with
    | none => some (off, acc, c :: s)
    | some d =>
      if 3 < off then none
      else if 0xFFFF < acc * 0x10 + d then none
      else readHex (off + 1) (acc * 0x10 + d) s

/-- Groups read, the place of the ellipsis among them, and the text left. -/
abbrev Groups := List Nat × Option Nat × Bytes

/-- The loop of `parseIPv6`, with room for `n` more groups. -/
def parseGroups : Nat → Bytes → List Nat → Option Nat → Option Groups
  | 0, s, groups, ellipsis => some (groups, ellipsis, s)
  | n + 1, s, groups, ellipsis =>
    match readHex 0 0 s with
    | none => none
    | some (off, acc, rest) =>
      if off = 0 then none
      else match rest with
        | [] => some (groups ++ [acc], ellipsis, [])
        | c :: rest =>
          if c = dot then
            if ellipsis = none ∧ groups.length ≠ 6 then none
            else if 8 < groups.length + 2 then none
            else match parseIPv4Fields s with
              | some [a, b, c, d] =>
                some (groups ++ [a * 0x100 + b, c * 0x100 + d], ellipsis, [])
              | _ => none
          else if c ≠ colon then none
          else match rest with
            | [] => none
            | c :: more =>
              if c = colon then
                if ellipsis.isSome then none
                else if more = [] then some (groups ++ [acc], some (groups.length + 1), [])
                else parseGroups n more (groups ++ [acc]) (some (groups.length + 1))
              else parseGroups n rest (groups ++ [acc]) ellipsis

/-- The end of `parseIPv6`: all text used, and zeros in the place of the ellipsis. -/
def expand : Groups → Option (List Nat)
  | (groups, ellipsis, rest) =>
    if rest ≠ [] then none
    else if groups.length < 8 then
      match ellipsis with
      | none => none
      | some e => some (groups.take e ++ List.replicate (8 - groups.length) 0 ++ groups.drop e)
    else if ellipsis.isSome then none
    else some groups

/-- The eight groups of an address text without its zone. -/
def parseBody (s : Bytes) : Option (List Nat) :=
  match s with
  | c :: d :: more =>
    if c = colon ∧ d = colon then
      if more = [] then some (List.replicate 8 0)
      else (parseGroups 8 more [] (some 0)).bind expand
    else (parseGroups 8 s [] none).bind expand
  | _ => (parseGroups 8 s [] none).bind expand

def parseIPv6 (s : Bytes) : Option Addr :=
  match splitFirst percent s with
  | some (_, []) => none
  | some (body, zone) =>
    (parseBody body).map (fun groups => .v6 (BitVec.ofNat 128 (ofDigits 0x10000 groups)) zone)
  | none => (parseBody s).map (fun groups => .v6 (BitVec.ofNat 128 (ofDigits 0x10000 groups)) [])

def isSpecial (c : UInt8) : Bool := c = dot ∨ c = colon ∨ c = percent

/-- `netip.ParseAddr`: the first dot, colon or percent sign tells which text it is. -/
def parseAddr (s : Bytes) : Option Addr :=
  match s.find? isSpecial with
  | some c => if c = dot then parseIPv4 s else if c = colon then parseIPv6 s else none
  | none => none

/-! ## What a text that parses looks like -/

theorem parseFields_bytes {val digLen : Nat} {fields r : List Nat} {s : Bytes}
    (h : parseFields val digLen fields s = some r) : ∀ c ∈ s, isDigit c = true ∨ c = dot := by
  induction s generalizing val digLen fields with
  | nil => exact fun c hc => absurd hc List.not_mem_nil
  | cons b s ih =>
    rw [parseFields] at h
    intro c hc
    by_cases hd : isDigit b = true
    · rw [if_pos hd] at h
      by_cases hz : digLen = 1 ∧ val = 0
      · rw [if_pos hz] at h
        cases h
      · rw [if_neg hz] at h
        simp only at h
        by_cases hv : 255 < val * 10 + (b.toNat - 0x30)
        · rw [if_pos hv] at h
          cases h
        · rw [if_neg hv] at h
          rcases List.mem_cons.mp hc with rfl | hc
          · exact Or.inl hd
          · exact ih h c hc
    · rw [if_neg hd] at h
      by_cases hb : b = dot
      · rw [if_pos hb] at h
        by_cases he : digLen = 0 ∨ s = []
        · rw [if_pos he] at h
          cases h
        · rw [if_neg he] at h
          by_cases hl : fields.length = 3
          · rw [if_pos hl] at h
            cases h
          · rw [if_neg hl] at h
            rcases List.mem_cons.mp hc with rfl | hc
            · exact Or.inr hb
            · exact ih h c hc
      · rw [if_neg hb] at h
        cases h

/-- The digits read, and the text they were read off. -/
theorem readHex_some {off acc off' acc' : Nat} {s rest : Bytes}
    (h : readHex off acc s = some (off', acc', rest)) :
    ∃ hex, s = hex ++ rest ∧ (∀ c ∈ hex, (hexVal c).isSome = true) ∧ off' = off + hex.length ∧
      ∀ c ∈ rest.head?, hexVal c = none := by
  induction s generalizing off acc with
  | nil =>
    cases h
    exact ⟨[], rfl, by simp, rfl, by simp⟩
  | cons b s ih =>
    rw [readHex] at h
    cases hv : hexVal b with
    | none =>
      rw [hv] at h
      cases h
      refine ⟨[], rfl, by simp, rfl, fun c hc => ?_⟩
      cases hc
      exact hv
    | some d =>
      rw [hv] at h
      simp only at h
      by_cases ho : 3 < off
      · rw [if_pos ho] at h
        cases h
      · rw [if_neg ho] at h
        by_cases ha : 0xFFFF < acc * 0x10 + d
        · rw [if_pos ha] at h
          cases h
        · rw [if_neg ha] at h
          obtain ⟨hex, hs, hh, hl, hr⟩ := ih h
          refine ⟨b :: hex, by rw [hs]; rfl, fun c hc => ?_, by simp only [List.length_cons]; omega,
            hr⟩
          rcases List.mem_cons.mp hc with rfl | hc
          · rw [hv]
            rfl
          · exact hh c hc

/-- Everything one round of the loop can do. -/
theorem parseGroups_succ {n : Nat} {s : Bytes} {groups : List Nat} {ellipsis : Option Nat}
    {r : Groups} (h : parseGroups (n + 1) s groups ellipsis = some r) :
    ∃ off acc rest, readHex 0 0 s = some (off, acc, rest) ∧ 0 < off ∧
      ((rest = [] ∧ r = (groups ++ [acc], ellipsis, [])) ∨
        (∃ more a b c d, rest = dot :: more ∧ (ellipsis ≠ none ∨ groups.length = 6) ∧
          groups.length ≤ 6 ∧ parseIPv4Fields s = some [a, b, c, d] ∧
          r = (groups ++ [a * 0x100 + b, c * 0x100 + d], ellipsis, [])) ∨
        (∃ more, rest = colon :: colon :: more ∧ ellipsis = none ∧
          ((more = [] ∧ r = (groups ++ [acc], some (groups.length + 1), [])) ∨
            parseGroups n more (groups ++ [acc]) (some (groups.length + 1)) = some r)) ∨
        (∃ c more, rest = colon :: c :: more ∧ c ≠ colon ∧
          parseGroups n (c :: more) (groups ++ [acc]) ellipsis = some r)) := by
  rw [parseGroups] at h
  cases hx : readHex 0 0 s with
  | none =>
    rw [hx] at h
    cases h
  | some p =>
    obtain ⟨off, acc, rest⟩ := p
    rw [hx] at h
    simp only at h
    by_cases ho : off = 0
    · rw [if_pos ho] at h
      cases h
    · rw [if_neg ho] at h
      refine ⟨off, acc, rest, rfl, Nat.pos_of_ne_zero ho, ?_⟩
      cases rest with
      | nil =>
        cases h
        exact Or.inl ⟨rfl, rfl⟩
      | cons c rest =>
        right
        simp only at h
        by_cases hd : c = dot
        · left
          rw [if_pos hd] at h
          by_cases hp : ellipsis = none ∧ groups.length ≠ 6
          · rw [if_pos hp] at h
            cases h
          · rw [if_neg hp] at h
            by_cases hl : 8 < groups.length + 2
            · rw [if_pos hl] at h
              cases h
            · rw [if_neg hl] at h
              split at h
              · rename_i a b c d hf
                cases h
                refine ⟨rest, a, b, c, d, by rw [hd], ?_, by omega, hf, rfl⟩
                by_cases he : ellipsis = none
                · exact Or.inr (by_contra fun hg => hp ⟨he, hg⟩)
                · exact Or.inl he
              · cases h
        · right
          rw [if_neg hd] at h
          by_cases hc : c = colon
          · rw [if_neg (not_not.mpr hc)] at h
            subst hc
            cases rest with
            | nil => cases h
            | cons c more =>
              simp only at h
              by_cases hcc : c = colon
              · left
                rw [if_pos hcc] at h
                by_cases he : ellipsis.isSome = true
                · rw [if_pos he] at h
                  cases h
                · rw [if_neg he] at h
                  refine ⟨more, by rw [hcc], by simpa using he, ?_⟩
                  by_cases hm : more = []
                  · rw [if_pos hm] at h
                    cases h
                    exact Or.inl ⟨hm, rfl⟩
                  · rw [if_neg hm] at h
                    exact Or.inr h
              · rw [if_neg hcc] at h
                exact Or.inr ⟨c, more, rfl, hcc, h⟩
          · rw [if_pos hc] at h
            cases h

/-- The bytes an address text consists of. -/
def isV6Byte (c : UInt8) : Bool := (hexVal c).isSome ∨ c = colon ∨ c = dot

theorem isV6Byte_of_digit {c : UInt8} (h : isDigit c = true ∨ c = dot) : isV6Byte c = true := by
  rcases h with h | rfl
  · simp only [isDigit, decide_eq_true_eq] at h
    simp [isV6Byte, hexVal, h]
  · decide

/-- Nothing else stands in a text read to its end, and without an ellipsis there
is a colon for nearly every group. -/
theorem parseGroups_text {n : Nat} {s : Bytes} {groups groups' : List Nat}
    {ellipsis ellipsis' : Option Nat}
    (h : parseGroups n s groups ellipsis = some (groups', ellipsis', [])) :
    (∀ c ∈ s, isV6Byte c = true) ∧
      (ellipsis' = ellipsis ∧ groups'.length ≤ groups.length + s.count colon + 2 ∨
        2 ≤ s.count colon) := by
  induction n generalizing s groups ellipsis with
  | zero =>
    cases h
    exact ⟨by simp, Or.inl ⟨rfl, by omega⟩⟩
  | succ n ih =>
    obtain ⟨off, acc, rest, hx, -, hcases⟩ := parseGroups_succ h
    obtain ⟨hex, rfl, hh, -, -⟩ := readHex_some hx
    have hhex : ∀ c ∈ hex, isV6Byte c = true := fun c hc => by simp [isV6Byte, hh c hc]
    rcases hcases with ⟨rfl, he⟩ | ⟨more, a, b, c, d, rfl, -, -, hf, he⟩ | ⟨more, rfl, hn, hm⟩ |
      ⟨c, more, rfl, hc, hm⟩
    · cases he
      refine ⟨by simpa using hhex, Or.inl ⟨rfl, ?_⟩⟩
      simp only [List.length_append, List.length_singleton]
      omega
    · cases he
      refine ⟨fun c hc => isV6Byte_of_digit (parseFields_bytes hf c hc), Or.inl ⟨rfl, ?_⟩⟩
      simp only [List.length_append, List.length_cons, List.length_nil]
      omega
    · have hcount : 2 ≤ (hex ++ colon :: colon :: more).count colon := by
        rw [List.count_append, List.count_cons_self, List.count_cons_self]
        omega
      refine ⟨fun c hc => ?_, Or.inr hcount⟩
      have hmore : ∀ c ∈ more, isV6Byte c = true := by
        rcases hm with ⟨rfl, -⟩ | hm
        · simp
        · exact (ih hm).1
      simp only [List.mem_append, List.mem_cons] at hc
      rcases hc with hc | rfl | rfl | hc
      · exact hhex c hc
      · decide
      · decide
      · exact hmore c hc
    · obtain ⟨hb, hcount⟩ := ih hm
      have hcons : (hex ++ colon :: c :: more).count colon =
          hex.count colon + (c :: more).count colon + 1 := by
        rw [List.count_append, List.count_cons_self]
        omega
      refine ⟨fun x hx => ?_, ?_⟩
      · rcases List.mem_append.mp hx with hx | hx
        · exact hhex x hx
        · rcases List.mem_cons.mp hx with rfl | hx
          · decide
          · exact hb x hx
      · rw [hcons]
        rcases hcount with ⟨he, hl⟩ | hl
        · left
          refine ⟨he, ?_⟩
          rw [List.length_append, List.length_singleton] at hl
          omega
        · right
          omega

theorem expand_some {groups r : List Nat} {ellipsis : Option Nat} {rest : Bytes}
    (h : expand (groups, ellipsis, rest) = some r) :
    rest = [] ∧ (ellipsis = none → groups.length ≥ 8) := by
  simp only [expand] at h
  by_cases hr : rest = []
  · rw [if_neg (not_not.mpr hr)] at h
    refine ⟨hr, fun he => ?_⟩
    by_contra hl
    rw [if_pos (by omega), he] at h
    cases h
  · rw [if_pos hr] at h
    cases h

/-- A text that parses has two colons, and nothing but address bytes; the first
special byte of it is a colon. -/
theorem parseBody_text {s : Bytes} {groups : List Nat} (h : parseBody s = some groups) :
    (∀ c ∈ s, isV6Byte c = true) ∧ 2 ≤ s.count colon ∧ s.find? isSpecial = some colon := by
  have hplain : ∀ {s : Bytes}, (parseGroups 8 s [] none).bind expand = some groups →
      (∀ c ∈ s, isV6Byte c = true) ∧ 2 ≤ s.count colon ∧ s.find? isSpecial = some colon := by
    intro s h
    obtain ⟨⟨gs, e, rest⟩, hg, he⟩ := Option.bind_eq_some_iff.mp h
    obtain ⟨rfl, hlen⟩ := expand_some he
    obtain ⟨hb, hc⟩ := parseGroups_text hg
    refine ⟨hb, ?_, ?_⟩
    · rcases hc with ⟨rfl, hc⟩ | hc
      · have := hlen rfl
        rw [List.length_nil] at hc
        omega
      · exact hc
    · obtain ⟨off, acc, rest, hx, -, hcases⟩ := parseGroups_succ hg
      obtain ⟨hex, rfl, hh, -, -⟩ := readHex_some hx
      have hnone : hex.find? isSpecial = none := by
        rw [List.find?_eq_none]
        intro c hc hsp
        have := hh c hc
        simp only [isSpecial, decide_eq_true_eq] at hsp
        rcases hsp with rfl | rfl | rfl <;> exact absurd this (by decide)
      have hcolon : ∀ more, (hex ++ colon :: more).find? isSpecial = some colon := by
        intro more
        rw [List.find?_append, hnone, List.find?_cons_of_pos (by decide)]
        rfl
      rcases hcases with ⟨rfl, hr⟩ | ⟨more, a, b, c, d, rfl, hn | hl, -⟩ | ⟨more, rfl, -⟩ |
        ⟨c, more, rfl, -⟩
      · cases hr
        have := hlen rfl
        simp at this
      · exact absurd rfl hn
      · cases hl
      · exact hcolon _
      · exact hcolon _
  unfold parseBody at h
  split at h
  · rename_i c d more
    by_cases hcc : c = colon ∧ d = colon
    · rw [if_pos hcc] at h
      obtain ⟨rfl, rfl⟩ := hcc
      have hmore : ∀ c ∈ more, isV6Byte c = true := by
        by_cases hm : more = []
        · simp [hm]
        · rw [if_neg hm] at h
          obtain ⟨⟨gs, e, rest⟩, hg, he⟩ := Option.bind_eq_some_iff.mp h
          obtain ⟨rfl, -⟩ := expand_some he
          exact (parseGroups_text hg).1
      refine ⟨fun c hc => ?_, ?_, List.find?_cons_of_pos (by decide)⟩
      · simp only [List.mem_cons] at hc
        rcases hc with rfl | rfl | hc
        · decide
        · decide
        · exact hmore c hc
      · rw [List.count_cons_self, List.count_cons_self]
        omega
    · rw [if_neg hcc] at h
      exact hplain h
  · exact hplain h

/-! ## The case of hexadecimal digits does not matter -/

def Groups.lower (r : Groups) : Groups := (r.1, r.2.1, r.2.2.map lowerByte)

/-- An address without colons is an IPv4 one in dotted decimals. -/
theorem parseAddr_no_colon {s : Bytes} {a : Addr} (h : parseAddr s = some a) (hc : colon ∉ s) :
    parseIPv4 s = some a ∧ ∀ c ∈ s, isDigit c = true ∨ c = dot := by
  unfold parseAddr at h
  cases hf : s.find? isSpecial with
  | none =>
    rw [hf] at h
    cases h
  | some c =>
    rw [hf] at h
    simp only at h
    by_cases hd : c = dot
    · rw [if_pos hd] at h
      refine ⟨h, ?_⟩
      obtain ⟨fields, hp, -⟩ := Option.map_eq_some_iff.mp h
      exact parseFields_bytes hp
    · rw [if_neg hd] at h
      by_cases hcc : c = colon
      · exact absurd (hcc ▸ List.mem_of_find?_eq_some hf) hc
      · rw [if_neg hcc] at h
        cases h

/-- The address of eight groups and a zone. -/
def addrOf (groups : List Nat) (zone : Bytes) : Addr :=
  .v6 (BitVec.ofNat 128 (ofDigits 0x10000 groups)) zone

/-- A body and, after a percent sign, a zone if there is one. -/
def withZone (body zone : Bytes) : Bytes := if zone = [] then body else body ++ percent :: zone

theorem percent_not_mem_body {body : Bytes} (h : ∀ c ∈ body, isV6Byte c = true) :
    percent ∉ body := fun hp => absurd (h percent hp) (by decide)

theorem parseAddr_withZone {body : Bytes} {groups : List Nat} (h : parseBody body = some groups)
    (zone : Bytes) : parseAddr (withZone body zone) = some (addrOf groups zone) := by
  obtain ⟨hb, -, hf⟩ := parseBody_text h
  have hp := percent_not_mem_body hb
  have hfind : (withZone body zone).find? isSpecial = some colon := by
    unfold withZone
    split
    · exact hf
    · rw [List.find?_append, hf]
      rfl
  rw [parseAddr, hfind]
  simp only [show colon ≠ dot by decide, ↓reduceIte]
  unfold withZone
  by_cases hz : zone = []
  · rw [if_pos hz, parseIPv6, splitFirst_none.mpr hp, h, hz]
    rfl
  · rw [if_neg hz, parseIPv6, splitFirst_append hp]
    cases zone with
    | nil => exact absurd rfl hz
    | cons z zone =>
      simp only [h]
      rfl

/-- An address with a colon is the text of eight groups, with its zone. -/
theorem parseAddr_colon {s : Bytes} {a : Addr} (h : parseAddr s = some a) (hc : colon ∈ s) :
    ∃ body zone groups, s = withZone body zone ∧ parseBody body = some groups ∧
      a = addrOf groups zone := by
  unfold parseAddr at h
  cases hf : s.find? isSpecial with
  | none =>
    rw [hf] at h
    cases h
  | some c =>
    rw [hf] at h
    simp only at h
    by_cases hd : c = dot
    · rw [if_pos hd] at h
      obtain ⟨fields, hp, -⟩ := Option.map_eq_some_iff.mp h
      exact absurd (parseFields_bytes hp colon hc) (by decide)
    · rw [if_neg hd] at h
      by_cases hcc : c = colon
      · rw [if_pos hcc, parseIPv6] at h
        cases hz : splitFirst percent s with
        | none =>
          rw [hz] at h
          obtain ⟨groups, hg, he⟩ := Option.map_eq_some_iff.mp h
          exact ⟨s, [], groups, by simp [withZone], hg, he.symm⟩
        | some p =>
          obtain ⟨body, zone⟩ := p
          rw [hz] at h
          cases zone with
          | nil => cases h
          | cons z zone =>
            obtain ⟨groups, hg, he⟩ := Option.map_eq_some_iff.mp h
            exact ⟨body, z :: zone, groups, by simp [withZone, (splitFirst_some hz).1], hg, he.symm⟩
      · rw [if_neg hcc] at h
        cases h

theorem parseAddr_valid {host : Bytes} {ip : Addr} (h : parseAddr host = some ip) :
    ip.isValid = true := by
  by_cases hc : colon ∈ host
  · obtain ⟨body, z, groups, -, -, he⟩ := parseAddr_colon h hc
    rw [he]
    rfl
  · obtain ⟨fields, -, he⟩ := Option.map_eq_some_iff.mp (parseAddr_no_colon h hc).1
    rw [← he]
    rfl

end SplitProxy.NetIP
