import Mathlib.Data.List.Nodup
import SplitProxy.DNSCache

/-!
# What the DNS cache remembers

The cache against the history of what was set: an entry is hit while it is the latest
of its host, fresh and not evicted, and a full cache of fresh entries gives up exactly
one of them for a new host. The history is kept beside the cache, newest first.
-/
namespace SplitProxy.DNSCache

open GoText NetIP Runs

/-- What happened to a normalised host. -/
inductive Act where
  | set (host : Bytes) (time : Nat) (ips : List Addr) (ok : Bool)
  | evicted (host : Bytes)
  deriving DecidableEq, Repr

structure Trace where
  now : Nat
  entries : Entries
  acts : List Act
  deriving DecidableEq, Repr

def Trace.init : Trace := ⟨0, [], []⟩

/-- A call, with the time that passes in a `set` and the key its eviction would meet
first; or time passing between calls. -/
inductive Op where
  | set (host : Bytes) (ips : List Addr) (ok : Bool) (setting : Nat) (victim : Bytes)
  | get (host : Bytes)
  | cleanup
  | advance (d : Nat)
  deriving DecidableEq, Repr

def lifetime (c : Config) (ok : Bool) : Nat := if ok then c.ttl else c.negativeTTL

/-- What `set` compares with the limit the second time. -/
def swept (c : Config) (now : Nat) (entries : Entries) : Entries :=
  if c.maxEntries ≤ entries.length then removeExpired now entries else entries

/-- `set` reaches its loop over the map. -/
def evicts (c : Config) (now : Nat) (entries : Entries) (key : Bytes) : Bool :=
  key ≠ [] ∧ entries.lookup key = none ∧ c.maxEntries ≤ (swept c now entries).length

def actsOf (c : Config) (s : Trace) (host : Bytes) (ips : List Addr) (ok : Bool) (setting : Nat)
    (victim : Bytes) : List Act :=
  .set (normalizeHost host) s.now ips ok ::
    if evicts c (s.now + setting) s.entries (normalizeHost host) then [.evicted victim] else []

def op (c : Config) (s : Trace) : Op → Option Trace
  | .set host ips ok setting victim =>
    (set c s.now (s.now + setting) victim s.entries host ips ok).map fun entries =>
      ⟨s.now + setting, entries, actsOf c s host ips ok setting victim ++ s.acts⟩
  | .get _ => some s
  | .cleanup => some { s with entries := removeExpired s.now s.entries }
  | .advance d => some { s with now := s.now + d }

/-- The latest set of a host, unless it has been evicted since. -/
def latest : List Act → Bytes → Option (Nat × List Addr × Bool)
  | [], _ => none
  | .set host time ips ok :: acts, key => if host = key then some (time, ips, ok) else latest acts key
  | .evicted host :: acts, key => if host = key then none else latest acts key

/-- The entries that are not expired. -/
def live (now : Nat) (entries : Entries) : Entries := removeExpired now entries

/-- The live entries of other hosts that are gone. -/
def removed (key : Bytes) (before after : Entries) : Entries :=
  before.filter (fun p => p.1 ≠ key ∧ p ∉ after)

variable {c : Config} {now later : Nat} {entries kept after : Entries} {key host victim : Bytes}
  {entry : DNSCacheEntry} {ips : List Addr} {ok : Bool}

/-! ## Entries by key -/

def Keyed (entries : Entries) : Prop := (entries.map Prod.fst).Nodup

theorem Keyed.filter (h : Keyed entries) (p : Bytes × DNSCacheEntry → Bool) :
    Keyed (entries.filter p) := h.sublist (List.filter_sublist.map Prod.fst)

theorem not_mem_delete (entries : Entries) (key : Bytes) :
    key ∉ (delete entries key).map Prod.fst := by
  simp [delete]

theorem Keyed.store (h : Keyed entries) (key : Bytes) (entry : DNSCacheEntry) :
    Keyed (store entries key entry) :=
  List.nodup_cons.mpr ⟨not_mem_delete entries key, h.filter _⟩

theorem lookup_delete (k : Bytes) :
    (delete entries key).lookup k = if k = key then none else entries.lookup k := by
  induction entries with
  | nil => simp [delete]
  | cons p entries ih =>
    unfold delete at ih ⊢
    by_cases hp : p.1 = key
    · rw [List.filter_cons_of_neg (by simp [hp]), ih]
      by_cases hk : k = key
      · simp [hk]
      · rw [if_neg hk, if_neg hk, List.lookup_cons, beq_false_of_ne (hp ▸ hk)]
    · rw [List.filter_cons_of_pos (by simp [hp]), List.lookup_cons, List.lookup_cons, ih]
      by_cases hk : k = key
      · rw [if_pos hk, if_pos hk, beq_false_of_ne (by rw [hk]; exact Ne.symm hp)]
      · rw [if_neg hk, if_neg hk]

theorem lookup_store (k : Bytes) :
    (store entries key entry).lookup k = if k = key then some entry else entries.lookup k := by
  rw [store, List.lookup_cons, lookup_delete]
  by_cases hk : k = key
  · simp [hk]
  · rw [beq_false_of_ne hk, if_neg hk, if_neg hk]

theorem lookup_iff_mem (h : Keyed entries) :
    entries.lookup key = some entry ↔ (key, entry) ∈ entries := by
  induction entries with
  | nil => simp
  | cons p entries ih =>
    obtain ⟨hp, hrest⟩ := List.nodup_cons.mp h
    rw [List.lookup_cons, List.mem_cons]
    by_cases hk : key = p.1
    · rw [hk, BEq.rfl]
      constructor
      · intro he
        cases he
        exact Or.inl rfl
      · rintro (he | hm)
        · rw [← he]
        · exact absurd (List.mem_map_of_mem hm) hp
    · rw [beq_false_of_ne hk, ih hrest]
      refine ⟨Or.inr, fun h => h.resolve_left ?_⟩
      rintro rfl
      exact hk rfl

theorem lookup_removeExpired (h : Keyed entries) : (removeExpired now entries).lookup key = some entry ↔
    entries.lookup key = some entry ∧ now < entry.expiresAt := by
  rw [lookup_iff_mem h, removeExpired, lookup_iff_mem (h.filter _), List.mem_filter]
  simp

/-! ## What a set keeps -/

/-- What a `set` keeps of the entries before it writes its own. -/
structure Kept (c : Config) (later : Nat) (victim key : Bytes) (entries kept : Entries) : Prop where
  keyed : Keyed kept
  room : (delete kept key).length < c.maxEntries
  old : ∀ k e, kept.lookup k = some e → entries.lookup k = some e
  found : evicts c later entries key = true → victim ∈ (swept c later entries).map Prod.fst
  evicted : evicts c later entries key = true → kept.lookup victim = none
  fresh : ∀ k e, entries.lookup k = some e → later < e.expiresAt →
    (evicts c later entries key = true → k ≠ victim) → kept.lookup k = some e

theorem keyed_swept (h : Keyed entries) : Keyed (swept c now entries) := by
  unfold swept
  split
  · exact h.filter _
  · exact h

theorem lookup_swept (h : Keyed entries) {k : Bytes} {e : DNSCacheEntry}
    (he : (swept c now entries).lookup k = some e) : entries.lookup k = some e := by
  unfold swept at he
  split at he
  · exact ((lookup_removeExpired h).mp he).1
  · exact he

theorem swept_lookup (h : Keyed entries) {k : Bytes} {e : DNSCacheEntry}
    (he : entries.lookup k = some e) (hfresh : now < e.expiresAt) :
    (swept c now entries).lookup k = some e := by
  unfold swept
  split
  · exact (lookup_removeExpired h).mpr ⟨he, hfresh⟩
  · exact he

theorem delete_absent (h : key ∉ entries.map Prod.fst) : delete entries key = entries := by
  refine List.filter_eq_self.mpr fun p hp => ?_
  have hne : p.1 ≠ key := fun he => h (he ▸ List.mem_map_of_mem hp)
  simp [hne]

/-- Taking a key out shortens the map. -/
theorem length_delete_lt (h : key ∈ entries.map Prod.fst) : (delete entries key).length < entries.length := by
  obtain ⟨p, hp, rfl⟩ := List.mem_map.mp h
  exact List.length_filter_lt_length_iff_exists.mpr ⟨p, hp, by simp⟩

theorem lookup_none_iff : entries.lookup key = none ↔ key ∉ entries.map Prod.fst := by
  rw [List.lookup_eq_none_iff]
  constructor
  · intro h hm
    obtain ⟨p, hp, rfl⟩ := List.mem_map.mp hm
    simpa using h p hp
  · intro h p hp
    have hne : key ≠ p.1 := fun he => h (he ▸ List.mem_map_of_mem hp)
    simpa using hne

theorem absent_of_old (hkey : entries.lookup key = none)
    (hold : ∀ k e, kept.lookup k = some e → entries.lookup k = some e) :
    key ∉ kept.map Prod.fst := by
  rw [← lookup_none_iff, Option.eq_none_iff_forall_ne_some]
  intro e he
  rw [hold key e he] at hkey
  cases hkey

theorem length_swept_le (c : Config) (now : Nat) (entries : Entries) :
    (swept c now entries).length ≤ entries.length := by
  unfold swept
  split
  · exact List.length_filter_le _ _
  · exact Nat.le_refl _

/-- A host that is there is replaced. -/
theorem kept_present (hkeyed : Keyed entries) (hbound : entries.length ≤ c.maxEntries)
    (hkey : entries.lookup key = some entry) : Kept c later victim key entries entries := by
  have hin : key ∈ entries.map Prod.fst := by
    by_contra hout
    rw [lookup_none_iff.mpr hout] at hkey
    cases hkey
  have hevicts : evicts c later entries key = false := by simp [evicts, hkey]
  exact ⟨hkeyed, Nat.lt_of_lt_of_le (length_delete_lt hin) hbound, fun _ _ he => he,
    by simp [hevicts], by simp [hevicts], fun _ _ he _ _ => he⟩

/-- There is room without an eviction. -/
theorem kept_swept (hkeyed : Keyed entries) (hkey : entries.lookup key = none)
    (hroom : (swept c later entries).length < c.maxEntries) :
    Kept c later victim key entries (swept c later entries) := by
  have hevicts : evicts c later entries key = false := by simp [evicts, hroom]
  have hold : ∀ k e, (swept c later entries).lookup k = some e → entries.lookup k = some e :=
    fun _ _ he => lookup_swept hkeyed he
  refine ⟨keyed_swept hkeyed, ?_, hold, by simp [hevicts], by simp [hevicts],
    fun _ _ he hf _ => swept_lookup hkeyed he hf⟩
  rw [delete_absent (absent_of_old hkey hold)]
  exact hroom

/-- The victim makes room. -/
theorem kept_evicted (hkeyed : Keyed entries) (hbound : entries.length ≤ c.maxEntries)
    (hne : key ≠ []) (hkey : entries.lookup key = none)
    (hfull : c.maxEntries ≤ (swept c later entries).length)
    (hvictim : victim ∈ (swept c later entries).map Prod.fst) :
    Kept c later victim key entries (delete (swept c later entries) victim) := by
  have hold : ∀ k e, (delete (swept c later entries) victim).lookup k = some e →
      entries.lookup k = some e := by
    intro k e he
    rw [lookup_delete] at he
    split at he
    · cases he
    · exact lookup_swept hkeyed he
  refine ⟨(keyed_swept hkeyed).filter _, ?_, hold, fun _ => hvictim, fun _ => ?_,
    fun k e he hf hother => ?_⟩
  · rw [delete_absent (absent_of_old hkey hold)]
    have hlt := length_delete_lt hvictim
    have hle := length_swept_le c later entries
    omega
  · rw [lookup_delete, if_pos rfl]
  · have hevicts : evicts c later entries key = true := by simp [evicts, hne, hkey, hfull]
    rw [lookup_delete, if_neg (hother hevicts), swept_lookup hkeyed he hf]

/-- A `set` of a blank host does nothing; any other writes its entry beside what it
keeps. -/
theorem set_keeps (h : set c now later victim entries host ips ok = some after)
    (hkeyed : Keyed entries) (hbound : entries.length ≤ c.maxEntries) :
    (normalizeHost host = [] ∧ after = entries) ∨
    (normalizeHost host ≠ [] ∧ ∃ kept, Kept c later victim (normalizeHost host) entries kept ∧
      after = store kept (normalizeHost host) ⟨ips, now + lifetime c ok, ok⟩) := by
  simp only [set] at h
  by_cases hn : normalizeHost host = []
  · rw [if_pos hn] at h
    cases h
    exact Or.inl ⟨hn, rfl⟩
  · refine Or.inr ⟨hn, ?_⟩
    rw [if_neg hn] at h
    cases hl : entries.lookup (normalizeHost host) with
    | some e =>
      rw [hl, Option.isSome_some, if_pos rfl] at h
      cases h
      exact ⟨entries, kept_present hkeyed hbound hl, rfl⟩
    | none =>
      rw [hl, Option.isSome_none, if_neg (by simp)] at h
      obtain ⟨kept, hroom, rfl⟩ := Option.map_eq_some_iff.mp h
      change (if c.maxEntries ≤ (swept c later entries).length then
        if victim ∈ (swept c later entries).map Prod.fst then
          some (delete (swept c later entries) victim) else none
        else some (swept c later entries)) = some kept at hroom
      by_cases hfull : c.maxEntries ≤ (swept c later entries).length
      · rw [if_pos hfull, Option.ite_none_right_eq_some] at hroom
        obtain ⟨hvictim, hkept⟩ := hroom
        cases hkept
        exact ⟨_, kept_evicted hkeyed hbound hn hl hfull hvictim, rfl⟩
      · rw [if_neg hfull] at hroom
        cases hroom
        exact ⟨_, kept_swept hkeyed hl (Nat.lt_of_not_le hfull), rfl⟩

/-! ## The cache follows its history -/

structure Inv (c : Config) (s : Trace) : Prop where
  keyed : Keyed s.entries
  bound : s.entries.length ≤ c.maxEntries
  blank : s.entries.lookup [] = none
  stored : ∀ k e, s.entries.lookup k = some e →
    ∃ t, latest s.acts k = some (t, e.ips, e.ok) ∧ e.expiresAt = t + lifetime c e.ok
  fresh : ∀ k t ips ok, k ≠ [] → latest s.acts k = some (t, ips, ok) → s.now < t + lifetime c ok →
    s.entries.lookup k = some ⟨ips, t + lifetime c ok, ok⟩

theorem inv_init (c : Config) : Inv c Trace.init where
  keyed := List.nodup_nil
  bound := Nat.zero_le _
  blank := rfl
  stored := fun k e h => by cases h
  fresh := fun k t ips ok _ h => by cases h

/-- Without a new act, the cache may lose what has expired and time may pass. -/
theorem inv_later {s : Trace} (hi : Inv c s) (d : Nat) :
    Inv c { s with now := s.now + d } ∧ Inv c { s with entries := removeExpired s.now s.entries } := by
  have hblank := hi.blank
  refine ⟨⟨hi.keyed, hi.bound, hi.blank, hi.stored, fun k t ips ok hk hl hf => ?_⟩, ?_⟩
  · have hlt : s.now + d < t + lifetime c ok := hf
    exact hi.fresh k t ips ok hk hl (by omega)
  · refine ⟨hi.keyed.filter _, ?_, ?_, fun k e he => ?_, fun k t ips ok hk hl hf => ?_⟩
    · exact Nat.le_trans (List.length_filter_le _ _) hi.bound
    · rw [Option.eq_none_iff_forall_ne_some]
      intro e he
      rw [((lookup_removeExpired hi.keyed).mp he).1] at hblank
      cases hblank
    · exact hi.stored k e ((lookup_removeExpired hi.keyed).mp he).1
    · exact (lookup_removeExpired hi.keyed).mpr ⟨hi.fresh k t ips ok hk hl hf, hf⟩

variable {s t : Trace} {setting : Nat}

theorem latest_actsOf (c : Config) (s : Trace) (host : Bytes) (ips : List Addr) (ok : Bool)
    (setting : Nat) (victim k : Bytes) :
    latest (actsOf c s host ips ok setting victim ++ s.acts) k =
      if normalizeHost host = k then some (s.now, ips, ok)
      else if evicts c (s.now + setting) s.entries (normalizeHost host) ∧ victim = k then none
      else latest s.acts k := by
  cases hevicts : evicts c (s.now + setting) s.entries (normalizeHost host) <;>
    simp [actsOf, latest, hevicts]

theorem inv_set (hi : Inv c s)
    (h : set c s.now (s.now + setting) victim s.entries host ips ok = some after) :
    Inv c ⟨s.now + setting, after, actsOf c s host ips ok setting victim ++ s.acts⟩ := by
  obtain ⟨hblank, rfl⟩ | ⟨hne, kept, hkept, rfl⟩ := set_keeps h hi.keyed hi.bound
  · have hevicts : evicts c (s.now + setting) s.entries (normalizeHost host) = false := by
      simp [evicts, hblank]
    refine ⟨hi.keyed, hi.bound, hi.blank, fun k e he => ?_, fun k t ips' ok' hk hl hf => ?_⟩
    · have hk : normalizeHost host ≠ k := by
        rintro rfl
        rw [hblank, hi.blank] at he
        cases he
      rw [latest_actsOf, if_neg hk, if_neg (by simp [hevicts])]
      exact hi.stored k e he
    · rw [latest_actsOf, hblank, if_neg (Ne.symm hk), ← hblank, if_neg (by simp [hevicts])] at hl
      have hlt : s.now + setting < t + lifetime c ok' := hf
      exact hi.fresh k t ips' ok' hk hl (by omega)
  · refine ⟨hkept.keyed.store _ _, hkept.room, ?_, fun k e he => ?_, fun k t ips' ok' hk hl hf => ?_⟩
    · rw [lookup_store, if_neg (Ne.symm hne), Option.eq_none_iff_forall_ne_some]
      intro e he
      have hold := hkept.old [] e he
      rw [hi.blank] at hold
      cases hold
    · rw [lookup_store] at he
      rw [latest_actsOf]
      by_cases hk : k = normalizeHost host
      · rw [if_pos hk] at he
        cases he
        exact ⟨s.now, if_pos hk.symm, rfl⟩
      · rw [if_neg hk] at he
        rw [if_neg (Ne.symm hk), if_neg]
        · exact hi.stored k e (hkept.old k e he)
        · rintro ⟨hevicts, rfl⟩
          rw [hkept.evicted hevicts] at he
          cases he
    · rw [latest_actsOf] at hl
      rw [lookup_store]
      by_cases hkey : k = normalizeHost host
      · rw [if_pos hkey.symm] at hl
        cases hl
        exact if_pos hkey
      · rw [if_neg (Ne.symm hkey)] at hl
        rw [if_neg hkey]
        split at hl
        · cases hl
        · rename_i hevicted
          have hlt : s.now + setting < t + lifetime c ok' := hf
          have hold := hi.fresh k t ips' ok' hk hl (by omega)
          exact hkept.fresh k _ hold hlt fun hevicts he => hevicted ⟨hevicts, he.symm⟩

theorem inv_op (hi : Inv c s) {o : Op} (h : op c s o = some t) : Inv c t := by
  cases o with
  | set host ips ok setting victim =>
    obtain ⟨after, hset, rfl⟩ := Option.map_eq_some_iff.mp h
    exact inv_set hi hset
  | get host =>
    cases h
    exact hi
  | cleanup =>
    cases h
    exact (inv_later hi 0).2
  | advance d =>
    cases h
    exact (inv_later hi d).1

theorem inv_run {ops : List Op} (h : run (op c) Trace.init ops = some s) : Inv c s :=
  run_preserves (fun _ _ _ hi ho => inv_op hi ho) (inv_init c) h

/-! ## Hits and evictions -/

/-- A hit is the latest set of the host, still fresh and not evicted. -/
theorem get_iff (hi : Inv c s) (host : Bytes) (ips : List Addr) (ok : Bool) :
    get s.now s.entries host = some (ips, ok) ↔ normalizeHost host ≠ [] ∧
      ∃ t, latest s.acts (normalizeHost host) = some (t, ips, ok) ∧ s.now < t + lifetime c ok := by
  unfold get
  by_cases hn : normalizeHost host = []
  · simp [hn]
  · simp only [hn, ↓reduceIte, ne_eq, not_false_eq_true, true_and]
    cases hl : s.entries.lookup (normalizeHost host) with
    | none =>
      simp only [reduceCtorEq, false_iff]
      rintro ⟨t, hlatest, hf⟩
      rw [hi.fresh _ t ips ok hn hlatest hf] at hl
      cases hl
    | some e =>
      obtain ⟨t, hlatest, hexpires⟩ := hi.stored _ e hl
      simp only [Option.ite_none_right_eq_some, hlatest, Option.some.injEq, Prod.mk.injEq]
      constructor
      · rintro ⟨hf, rfl, rfl⟩
        exact ⟨t, ⟨rfl, rfl, rfl⟩, by omega⟩
      · rintro ⟨t', ⟨rfl, rfl, rfl⟩, hf⟩
        exact ⟨by omega, rfl, rfl⟩

theorem mem_store_iff {p : Bytes × DNSCacheEntry} (hp : p.1 ≠ key) :
    p ∈ store kept key entry ↔ p ∈ kept := by
  have hne : p ≠ (key, entry) := fun he => hp (he ▸ rfl)
  simp [store, delete, hne, hp]

/-- A key that is there belongs to one entry. -/
theorem length_filter_key (h : Keyed entries) (hkey : key ∈ entries.map Prod.fst) :
    (entries.filter fun p => p.1 = key).length = 1 := by
  have hone := List.count_eq_one_of_mem h hkey
  have hsame : (entries.filter fun p => p.1 = key) = entries.filter ((· == key) ∘ Prod.fst) :=
    List.filter_congr fun p _ => (beq_eq_decide p.1 key).symm
  rw [hsame, ← List.countP_eq_length_filter, ← List.countP_map, ← List.count_eq_countP, hone]

/-- A live entry stays unless it is the one evicted. -/
theorem Kept.stays (hk : Kept c later victim key entries kept) (hkeyed : Keyed entries)
    {p : Bytes × DNSCacheEntry} (hp : p ∈ live later entries)
    (hother : evicts c later entries key = true → p.1 ≠ victim) : p ∈ kept := by
  obtain ⟨hmem, hf⟩ := List.mem_filter.mp hp
  have hold : entries.lookup p.1 = some p.2 := (lookup_iff_mem hkeyed).mpr hmem
  exact (lookup_iff_mem hk.keyed).mp (hk.fresh p.1 p.2 hold (of_decide_eq_true hf) hother)

theorem Kept.removed_nil (hk : Kept c later victim key entries kept) (hkeyed : Keyed entries)
    (hevicts : evicts c later entries key = false) :
    removed key (live later entries) (store kept key entry) = [] := by
  simp only [removed, List.filter_eq_nil_iff]
  intro p hp hgone
  obtain ⟨hpk, hout⟩ := of_decide_eq_true hgone
  exact hout ((mem_store_iff hpk).mpr (hk.stays hkeyed hp (by simp [hevicts])))

theorem Kept.removed_victim (hk : Kept c later victim key entries kept) (hkeyed : Keyed entries)
    (hevicts : evicts c later entries key = true) :
    removed key (live later entries) (store kept key entry) =
      (live later entries).filter fun p => p.1 = victim := by
  have habsent : entries.lookup key = none := by
    have hparts := hevicts
    simp only [evicts, decide_eq_true_eq] at hparts
    exact hparts.2.1
  refine List.filter_congr fun p hp => decide_eq_decide.mpr ?_
  have hpk : p.1 ≠ key := by
    intro he
    exact lookup_none_iff.mp habsent (he ▸ List.mem_map_of_mem (mem_removeExpired hp))
  rw [mem_store_iff hpk]
  constructor
  · rintro ⟨-, hgone⟩
    by_contra hother
    exact hgone (hk.stays hkeyed hp fun _ => hother)
  · intro hvictim
    refine ⟨hpk, fun hmem => ?_⟩
    have hgone := hk.evicted hevicts
    rw [← hvictim, (lookup_iff_mem hk.keyed).mpr hmem] at hgone
    cases hgone

/-- The victim is one of the live entries that fill the map. -/
theorem Kept.victim_live (hk : Kept c later victim key entries kept)
    (hevicts : evicts c later entries key = true) :
    victim ∈ (live later entries).map Prod.fst := by
  have hparts := hevicts
  simp only [evicts, decide_eq_true_eq] at hparts
  have hswept : swept c later entries = live later entries :=
    if_pos (Nat.le_trans hparts.2.2 (length_swept_le c _ entries))
  rw [← hswept]
  exact hk.found hevicts

/-- What an eviction leaves out is the victim, one of the live entries that fill the
map; without one, nothing live goes. -/
theorem removed_spec (hi : Inv c s)
    (h : set c s.now (s.now + setting) victim s.entries host ips ok = some after) :
    let gone := removed (normalizeHost host) (live (s.now + setting) s.entries) after
    if evicts c (s.now + setting) s.entries (normalizeHost host) then gone.length = 1
    else gone = [] := by
  obtain ⟨hblank, rfl⟩ | ⟨hne, kept, hkept, rfl⟩ := set_keeps h hi.keyed hi.bound
  · have hevicts : evicts c (s.now + setting) s.entries (normalizeHost host) = false := by
      simp [evicts, hblank]
    simp only [hevicts, Bool.false_eq_true, ↓reduceIte, removed, List.filter_eq_nil_iff]
    intro p hp
    simp [mem_removeExpired hp]
  · cases hevicts : evicts c (s.now + setting) s.entries (normalizeHost host) with
    | false =>
      simp only [Bool.false_eq_true, ↓reduceIte]
      exact hkept.removed_nil hi.keyed hevicts
    | true =>
      simp only [↓reduceIte, hkept.removed_victim hi.keyed hevicts]
      exact length_filter_key (hi.keyed.filter _) (hkept.victim_live hevicts)

theorem evicts_iff (hbound : entries.length ≤ c.maxEntries) : evicts c later entries key = true ↔
    key ≠ [] ∧ entries.lookup key = none ∧ (live later entries).length = c.maxEntries := by
  simp only [evicts, decide_eq_true_eq]
  have hle : (live later entries).length ≤ entries.length := List.length_filter_le _ _
  have hiff : c.maxEntries ≤ (swept c later entries).length ↔
      (live later entries).length = c.maxEntries := by
    unfold swept
    split
    · exact ⟨fun h => Nat.le_antisymm (Nat.le_trans hle hbound) h, fun h => Nat.le_of_eq h.symm⟩
    · constructor <;> omega
  rw [hiff]

/-- In every run the map stays within its limit; a `get` hits exactly if the latest set
of the host is still fresh and has not been evicted, and gives what was set; and a `set`
takes a live entry of another host away only for a host that is not there, when the map
is full of live entries, and then exactly one. Blank hosts are never set and never hit. -/
theorem bounds_and_freshness (c : Config) (ops : List Op) (s : Trace)
    (h : run (op c) Trace.init ops = some s) :
    s.entries.length ≤ c.maxEntries ∧
    (∀ host ips ok, get s.now s.entries host = some (ips, ok) ↔ normalizeHost host ≠ [] ∧
      ∃ t, latest s.acts (normalizeHost host) = some (t, ips, ok) ∧ s.now < t + lifetime c ok) ∧
    ∀ host ips ok setting victim t, op c s (.set host ips ok setting victim) = some t →
      (normalizeHost host = [] → t.entries = s.entries) ∧
      let gone := removed (normalizeHost host) (live (s.now + setting) s.entries) t.entries
      if normalizeHost host ≠ [] ∧ s.entries.lookup (normalizeHost host) = none ∧
          (live (s.now + setting) s.entries).length = c.maxEntries then gone.length = 1
      else gone = [] := by
  have hi := inv_run h
  refine ⟨hi.bound, get_iff hi, fun host ips ok setting victim t ho => ?_⟩
  obtain ⟨after, hset, rfl⟩ := Option.map_eq_some_iff.mp ho
  refine ⟨fun hblank => ?_, ?_⟩
  · obtain ⟨-, hafter⟩ | ⟨hne, -⟩ := set_keeps hset hi.keyed hi.bound
    · exact hafter
    · exact absurd hblank hne
  · have hspec := removed_spec hi hset
    simp only [evicts_iff hi.bound] at hspec
    exact hspec

/-- A cache of one entry: a name is set, read, and evicted by another. -/
theorem bounds_and_freshness_example : ∃ s,
    run (op (newDNSCache 1 5 2)) Trace.init
        [.set [0x61] [.v4 1] true 0 [], .advance 1, .set [0x62] [] false 1 [0x61]] = some s ∧
      s.acts = [.set [0x62] 1 [] false, .evicted [0x61], .set [0x61] 0 [.v4 1] true] ∧
      s.entries.length ≤ 1 := by
  refine ⟨⟨2, [([0x62], ⟨[], 3, false⟩)], [.set [0x62] 1 [] false, .evicted [0x61],
    .set [0x61] 0 [.v4 1] true]⟩, by decide +kernel, rfl, ?_⟩
  exact (bounds_and_freshness (newDNSCache 1 5 2)
    [.set [0x61] [.v4 1] true 0 [], .advance 1, .set [0x62] [] false 1 [0x61]] _
    (by decide +kernel)).1

/-- The blank host is set and still fresh, and nothing was evicted, but it is not hit. -/
theorem blank_never_hit : ∃ s,
    run (op (newDNSCache 1 5 2)) Trace.init [.set [0x20] [.v4 1] true 0 []] = some s ∧
      latest s.acts (normalizeHost []) = some (0, [.v4 1], true) ∧
      s.now < 0 + lifetime (newDNSCache 1 5 2) true ∧ get s.now s.entries [] = none :=
  ⟨⟨0, [], [.set [] 0 [.v4 1] true]⟩, by decide +kernel, by decide +kernel, by decide +kernel,
    by decide +kernel⟩

end SplitProxy.DNSCache
