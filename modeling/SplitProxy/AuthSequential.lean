import Mathlib.Data.List.Perm.Basic
import SplitProxy.AuthInflight
import SplitProxy.SyncMap
import SplitProxy.HTTPConnect

/-!
# The credential store without overlap

`CheckCredentials` and `reload` as plain functions of the store, for callers
that come one after another. What the clock shows and in which order `Range`
hands out the keys is given from outside. The cached check is compared with
`plainAnswers`, which knows the last table only.
-/
namespace SplitProxy.AuthSequential

open SyncMap GoText NetIP HTTPConnect
open AuthStore (Bytes Table AuthUser CacheKey Hashes authCacheMaxEntries authPBKDF2Concurrency
  checkPBKDF2 verdict)

/-- Times are nanoseconds. -/
def authSuccessTTL : Nat := 60 * 10 ^ 9
def authFailureTTL : Nat := 2 * 10 ^ 9

structure CacheEntry where
  validUntil : Nat
  generation : UInt64
  ok : Bool
  deriving DecidableEq, Repr

abbrev Cache := Entries CacheKey CacheEntry

structure Store where
  users : Table
  generation : UInt64
  cache : Cache
  cacheCount : Int
  pbkdf2Sem : Nat
  inflight : List CacheKey

/-- An order in which `Range` hands out the keys of a map nobody else writes. -/
structure RangeOrder where
  keys : Cache → List CacheKey
  perm : ∀ m, (keys m).Perm (m.map Prod.fst)

/-- What one call sees of the world: the three readings of the clock, as advances, and
the orders of the sweep and of the trimming rounds. -/
structure Surroundings where
  start : Nat
  hashing : Nat
  storing : Nat
  sweep : RangeOrder
  rounds : Nat → RangeOrder

def Surroundings.duration (w : Surroundings) : Nat := w.start + w.hashing + w.storing

/-- `LoadAndDelete`, and `cacheCount.Add(-1)` when the key was present. -/
def loadAndDelete (s : Store) (key : CacheKey) : Store :=
  match load s.cache key with
  | some _ => { s with cache := delete s.cache key, cacheCount := s.cacheCount - 1 }
  | none => s

/-- The callback of the first `Range` in `cleanupCache`. -/
def sweepKey (now : Nat) (s : Store) (key : CacheKey) : Store :=
  match load s.cache key with
  | some entry => if entry.validUntil < now then loadAndDelete s key else s
  | none => s

theorem length_delete_lt {m : Cache} {key : CacheKey} (h : key ∈ m.map Prod.fst) :
    (delete m key).length < m.length := by
  obtain ⟨e, he, rfl⟩ := List.mem_map.mp h
  refine List.length_filter_lt_length_iff_exists.mpr ⟨e, he, ?_⟩
  simp

theorem load_of_mem_keys {m : Cache} {key : CacheKey} (h : key ∈ m.map Prod.fst) :
    ∃ entry, load m key = some entry := by
  obtain ⟨e, he, rfl⟩ := List.mem_map.mp h
  cases hl : load m e.1 with
  | some entry => exact ⟨entry, rfl⟩
  | none =>
    simp only [load, Option.map_eq_none_iff, List.find?_eq_none] at hl
    exact absurd (hl e he) (by simp)

theorem length_loadAndDelete {s : Store} {key : CacheKey} (h : key ∈ s.cache.map Prod.fst) :
    (loadAndDelete s key).cache.length < s.cache.length := by
  obtain ⟨entry, he⟩ := load_of_mem_keys h
  simp only [loadAndDelete, he]
  exact length_delete_lt h

/-- The second loop: delete the first key of a `Range` until few enough are left. -/
def trim (rounds : Nat → RangeOrder) (s : Store) : Store :=
  if authCacheMaxEntries < s.cacheCount then
    match hk : (rounds 0).keys s.cache with
    | [] => s
    | key :: _ => trim (fun n => rounds (n + 1)) (loadAndDelete s key)
  else s
termination_by s.cache.length
decreasing_by
  refine length_loadAndDelete (((rounds 0).perm s.cache).subset ?_)
  rw [hk]
  exact List.mem_cons_self

def cleanupCache (w : Surroundings) (now : Nat) (s : Store) : Store :=
  trim w.rounds ((w.sweep.keys s.cache).foldl (sweepKey now) s)

def storeCache (w : Surroundings) (now : Nat) (s : Store) (key : CacheKey) (entry : CacheEntry) :
    Store :=
  match load s.cache key with
  | some _ => { s with cache := store s.cache key entry }
  | none =>
    let s := { s with cache := store s.cache key entry, cacheCount := s.cacheCount + 1 }
    if s.cacheCount ≤ authCacheMaxEntries then s else cleanupCache w now s

/-- The part of `CheckCredentials` after the cache; `none` is a call that waits forever,
for another call or for the semaphore. -/
def checkUncached (H : Hashes) (w : Surroundings) (time : Nat) (s : Store) (user : AuthUser)
    (key : CacheKey) (generation : UInt64) (password : Bytes) : Option (Bool × Store) :=
  if key ∈ s.inflight then none
  else if authPBKDF2Concurrency ≤ s.pbkdf2Sem then none
  else
    let s := { s with inflight := key :: s.inflight }
    let ok := checkPBKDF2 H user password
    let built := time + w.start + w.hashing
    let entry := ⟨built + (if ok then authSuccessTTL else authFailureTTL), generation, ok⟩
    let s := storeCache w (built + w.storing) s key entry
    some (ok, { s with inflight := s.inflight.erase key })

def checkCredentials (H : Hashes) (w : Surroundings) (time : Nat) (s : Store)
    (username password : Bytes) : Option (Bool × Store) :=
  match s.users username with
  | none => some (false, s)
  | some user =>
    let key := ⟨username, H.sha256 password⟩
    let generation := s.generation
    let now := time + w.start
    match load s.cache key with
    | some entry =>
      if entry.generation = generation ∧ now < entry.validUntil then some (entry.ok, s)
      else checkUncached H w time (loadAndDelete s key) user key generation password
    | none => checkUncached H w time s user key generation password

/-! ## Reloads -/

def dollar : UInt8 := 0x24

/-- `strings.SplitN(encoded, "$", 4)` when it gives four parts. -/
def splitFour (encoded : Bytes) : Option (Bytes × Bytes × Bytes × Bytes) :=
  (splitFirst dollar encoded).bind fun a =>
    (splitFirst dollar a.2).bind fun b =>
      (splitFirst dollar b.2).map fun c => (a.1, b.1, c.1, c.2)

def parsePBKDF2 (encoded : Bytes) : Option AuthUser :=
  match splitFour encoded with
  | none => none
  | some (algorithm, iterations, salt, key) =>
    if algorithm ≠ ascii "pbkdf2_sha256" then none
    else
      match atoi iterations with
      | none => none
      | some n =>
        if n ≤ 0 then none
        else
          match decodeString key with
          | none => none
          | some expected =>
            if expected.length ≠ 32 then none else some ⟨n.toNat, salt, expected⟩

/-- A row as `rows.Scan` delivers it. -/
inductive Row where
  | scanFailed
  | row (username passwordHash : Bytes)
  deriving DecidableEq, Repr

/-- The rows of a query and whether `rows.Err` reports an error after them. -/
structure Rows where
  rows : List Row
  failed : Bool
  deriving DecidableEq, Repr

/-- The loop over the rows; a hash `parsePBKDF2` refuses is skipped. -/
def collect : List Row → Table → Option Table
  | [], users => some users
  | .scanFailed :: _, _ => none
  | .row username passwordHash :: rest, users =>
    match parsePBKDF2 passwordHash with
    | none => collect rest users
    | some user => collect rest (Function.update users username (some user))

/-- The table a reload gets to; `none` for any of its errors. -/
def fetched : Option Rows → Option Table
  | none => none
  | some q => (collect q.rows fun _ => none).filter fun _ => !q.failed

def reload (q : Option Rows) (s : Store) : Bool × Store :=
  match fetched q with
  | none => (false, s)
  | some users => (true, { s with users := users, generation := s.generation + 1 })

/-- `NewAuthStore` fails when its first reload does. -/
def newAuthStore (q : Option Rows) : Option Store :=
  match reload q ⟨fun _ => none, 0, [], 0, 0, []⟩ with
  | (true, s) => some s
  | (false, _) => none

/-! ## Runs -/

inductive Op where
  | check (username password : Bytes) (w : Surroundings)
  | reload (q : Option Rows)
  | advance (d : Nat)

def Op.duration : Op → Nat
  | .check _ _ w => w.duration
  | .reload _ => 0
  | .advance d => d

/-- The clock a sequence of operations leaves, from zero. -/
def elapsed (ops : List Op) : Nat := (ops.map Op.duration).sum

variable (H : Hashes)

/-- The answers of the checks, or `none` when one of them never returns. -/
def answers (time : Nat) (s : Store) : List Op → Option (List Bool)
  | [] => some []
  | .check username password w :: rest =>
    match checkCredentials H w time s username password with
    | none => none
    | some (ok, s) => (answers (time + w.duration) s rest).map (ok :: ·)
  | .reload q :: rest => answers time (reload q s).2 rest
  | .advance d :: rest => answers (time + d) s rest

/-- The answers of a check that looks at the table of the last successful reload. -/
def plainAnswers (table : Table) : List Op → List Bool
  | [] => []
  | .check username password _ :: rest =>
    verdict H table username password :: plainAnswers table rest
  | .reload q :: rest => plainAnswers ((fetched q).getD table) rest
  | .advance _ :: rest => plainAnswers table rest

/-! ## Cleaning up only forgets -/

/-- `t` is `s` with some cache entries gone. -/
structure Shrinks (s t : Store) : Prop where
  users : t.users = s.users
  generation : t.generation = s.generation
  sem : t.pbkdf2Sem = s.pbkdf2Sem
  inflight : t.inflight = s.inflight
  cache : ∀ key entry, load t.cache key = some entry → load s.cache key = some entry

theorem Shrinks.refl (s : Store) : Shrinks s s := ⟨rfl, rfl, rfl, rfl, fun _ _ h => h⟩

theorem Shrinks.trans {s t u : Store} (h : Shrinks s t) (h' : Shrinks t u) : Shrinks s u where
  users := h'.users.trans h.users
  generation := h'.generation.trans h.generation
  sem := h'.sem.trans h.sem
  inflight := h'.inflight.trans h.inflight
  cache := fun key entry hl => h.cache key entry (h'.cache key entry hl)

theorem loadAndDelete_shrinks (s : Store) (key : CacheKey) : Shrinks s (loadAndDelete s key) := by
  unfold loadAndDelete
  split
  · exact ⟨rfl, rfl, rfl, rfl, fun k entry h => (load_of_delete h).2⟩
  · exact .refl s

theorem sweepKey_shrinks (now : Nat) (s : Store) (key : CacheKey) :
    Shrinks s (sweepKey now s key) := by
  unfold sweepKey
  split
  · split
    · exact loadAndDelete_shrinks s key
    · exact .refl s
  · exact .refl s

theorem foldl_shrinks (now : Nat) (keys : List CacheKey) (s : Store) :
    Shrinks s (keys.foldl (sweepKey now) s) := by
  induction keys generalizing s with
  | nil => exact .refl s
  | cons key keys ih => exact (sweepKey_shrinks now s key).trans (ih _)

theorem trim_shrinks (rounds : Nat → RangeOrder) (s : Store) : Shrinks s (trim rounds s) := by
  induction rounds, s using trim.induct with
  | case1 rounds s hlt hk =>
    rw [trim, if_pos hlt]
    split
    · exact .refl s
    · rename_i hk'
      rw [hk] at hk'
      cases hk'
  | case2 rounds s hlt key rest hk ih =>
    rw [trim, if_pos hlt]
    split
    · exact .refl s
    · rename_i key' rest' hk'
      rw [hk] at hk'
      cases hk'
      exact (loadAndDelete_shrinks s key).trans ih
  | case3 rounds s hle =>
    rw [trim, if_neg hle]
    exact .refl s

theorem cleanupCache_shrinks (w : Surroundings) (now : Nat) (s : Store) :
    Shrinks s (cleanupCache w now s) :=
  (foldl_shrinks now _ s).trans (trim_shrinks _ _)

/-- The trimming ends with few enough entries counted, or with none left to delete. -/
theorem trim_ends (rounds : Nat → RangeOrder) (s : Store) :
    (trim rounds s).cacheCount ≤ authCacheMaxEntries ∨ (trim rounds s).cache = [] := by
  induction rounds, s using trim.induct with
  | case1 rounds s hlt hk =>
    have hempty : s.cache = [] := by
      have hp := (rounds 0).perm s.cache
      rw [hk] at hp
      exact List.map_eq_nil_iff.mp hp.symm.eq_nil
    rw [trim, if_pos hlt]
    split
    · exact Or.inr hempty
    · rename_i hk'
      rw [hk] at hk'
      cases hk'
  | case2 rounds s hlt key rest hk ih =>
    rw [trim, if_pos hlt]
    split
    · rename_i hk'
      rw [hk] at hk'
      cases hk'
    · rename_i key' rest' hk'
      rw [hk] at hk'
      cases hk'
      exact ih
  | case3 rounds s hle =>
    rw [trim, if_neg hle]
    exact Or.inl (by omega)

/-- After `storeCache` the new entry is there or gone, and nothing else has come. -/
theorem storeCache_spec (w : Surroundings) (now : Nat) (s : Store) (key : CacheKey)
    (entry : CacheEntry) :
    Shrinks { s with cache := store s.cache key entry } (storeCache w now s key entry) := by
  have hcount : ∀ n, Shrinks { s with cache := store s.cache key entry }
      { s with cache := store s.cache key entry, cacheCount := n } :=
    fun n => ⟨rfl, rfl, rfl, rfl, fun _ _ h => h⟩
  unfold storeCache
  split
  · exact .refl _
  · dsimp only
    split
    · exact hcount _
    · exact (hcount _).trans (cleanupCache_shrinks w now _)

/-! ## The history of a store -/

/-- The successful reloads among the operations. -/
def successes (ops : List Op) : Nat :=
  ops.countP fun op => match op with
    | .reload q => (fetched q).isSome
    | _ => false

/-- The table of the last successful reload. -/
def tableAfter (table : Table) (ops : List Op) : Table :=
  ops.foldl (fun table op => match op with
    | .reload q => (fetched q).getD table
    | _ => table) table

/-- The generation counter, which wraps around. -/
def generationAfter (ops : List Op) : UInt64 := UInt64.ofNat (1 + successes ops)

/-- The passwords clients present. -/
def passwords (ops : List Op) : List Bytes :=
  ops.filterMap fun op => match op with
    | .check _ password _ => some password
    | _ => none

/-- While `2 ^ 64` reloads succeed at least the lifetime of an entry passes. -/
def Spaced (ops : List Op) : Prop :=
  ∀ a b c, ops = a ++ b ++ c → 2 ^ 64 ≤ successes b → authSuccessTTL ≤ elapsed b

variable {H} {table : Table} {Occurs : Bytes → Prop} {a b past ops : List Op} {op : Op}
  {s : Store} {key : CacheKey} {entry : CacheEntry}

@[simp] theorem successes_append : successes (a ++ b) = successes a + successes b :=
  List.countP_append

@[simp] theorem elapsed_append : elapsed (a ++ b) = elapsed a + elapsed b := by
  simp [elapsed]

theorem tableAfter_append :
    tableAfter table (a ++ b) = tableAfter (tableAfter table a) b :=
  List.foldl_append

/-- Without a successful reload the table stays. -/
theorem tableAfter_of_none (h : successes b = 0) : tableAfter table b = table := by
  induction b generalizing table with
  | nil => rfl
  | cons op b ih =>
    simp only [successes, List.countP_cons, Nat.add_eq_zero_iff] at h
    obtain ⟨hb, hop⟩ := h
    have hstay : tableAfter table (op :: b) = tableAfter table b := by
      cases op with
      | reload q =>
        cases hq : fetched q with
        | none => simp [tableAfter, hq]
        | some u => simp [hq] at hop
      | check u p w => rfl
      | advance d => rfl
    rw [hstay]
    exact ih hb

/-- An entry was built at some point of the past, from the table of that point. -/
def Vouched (H : Hashes) (table : Table)
    (Occurs : Bytes → Prop) (past : List Op) (key : CacheKey) (entry : CacheEntry) : Prop :=
  ∃ a b p, past = a ++ b ∧ Occurs p ∧ key.password = H.sha256 p ∧
    entry.generation = generationAfter a ∧
    entry.validUntil ≤ elapsed a + authSuccessTTL ∧
    entry.ok = verdict H (tableAfter table a) key.username p

structure Inv (H : Hashes) (table : Table)
    (Occurs : Bytes → Prop) (past : List Op) (s : Store) : Prop where
  users : s.users = tableAfter table past
  generation : s.generation = generationAfter past
  sem : s.pbkdf2Sem = 0
  inflight : s.inflight = []
  cache : ∀ key entry, load s.cache key = some entry → Vouched H table Occurs past key entry

theorem Vouched.later (h : Vouched H table Occurs past key entry) (op : Op) :
    Vouched H table Occurs (past ++ [op]) key entry := by
  obtain ⟨a, b, p, rfl, h⟩ := h
  exact ⟨a, b ++ [op], p, by rw [List.append_assoc], h⟩

/-- A check and an advance of the clock leave table and generation alone. -/
theorem inv_later (hs : Inv H table Occurs past s)
    (hop : ∀ q, op ≠ .reload q) : Inv H table Occurs (past ++ [op]) s := by
  have hn : successes [op] = 0 := by
    cases op with
    | reload q => exact absurd rfl (hop q)
    | check u p w => rfl
    | advance d => rfl
  refine ⟨?_, ?_, hs.sem, hs.inflight, fun key entry hl => (hs.cache key entry hl).later op⟩
  · rw [tableAfter_append, tableAfter_of_none hn]
    exact hs.users
  · rw [generationAfter, successes_append, hn]
    exact hs.generation

theorem inv_shrinks {t : Store} (hs : Inv H table Occurs past s) (h : Shrinks s t) :
    Inv H table Occurs past t :=
  ⟨h.users.trans hs.users, h.generation.trans hs.generation, h.sem.trans hs.sem,
    h.inflight.trans hs.inflight, fun key entry hl => hs.cache key entry (h.cache key entry hl)⟩

theorem inv_reload {q : Option Rows} (hs : Inv H table Occurs past s) :
    Inv H table Occurs (past ++ [.reload q]) (reload q s).2 := by
  have htable : tableAfter table (past ++ [.reload q]) =
      (fetched q).getD (tableAfter table past) := by
    rw [tableAfter_append]
    rfl
  unfold reload
  cases hq : fetched q with
  | none =>
    have hn : successes [.reload q] = 0 := by simp [successes, hq]
    refine ⟨?_, ?_, hs.sem, hs.inflight, fun key entry hl => (hs.cache key entry hl).later _⟩
    · rw [htable, hq]
      exact hs.users
    · rw [generationAfter, successes_append, hn]
      exact hs.generation
  | some users =>
    have hn : successes [.reload q] = 1 := by simp [successes, hq]
    refine ⟨?_, ?_, hs.sem, hs.inflight, fun key entry hl => (hs.cache key entry hl).later _⟩
    · rw [htable, hq]
      rfl
    · simp only [hs.generation, generationAfter, successes_append, hn]
      rw [← Nat.add_assoc]
      exact (UInt64.ofNat_add _ 1).symm

/-- An entry of the current generation that is still valid answers like the current table. -/
theorem entry_current (hv : Vouched H table Occurs past key entry)
    (hspaced : Spaced (past ++ ops)) (hg : entry.generation = generationAfter past)
    {now : Nat} (hnow : elapsed past ≤ now) (hvalid : now < entry.validUntil) :
    ∃ p, Occurs p ∧ key.password = H.sha256 p ∧
      entry.ok = verdict H (tableAfter table past) key.username p := by
  obtain ⟨a, b, p, rfl, hp, hkey, hga, huntil, hok⟩ := hv
  refine ⟨p, hp, hkey, ?_⟩
  have hfew : successes b < 2 ^ 64 := by
    by_contra hmany
    have hlong := hspaced a b ops rfl (by omega)
    rw [elapsed_append] at hnow
    omega
  have hzero : successes b = 0 := by
    have heq := congrArg UInt64.toNat (hga.symm.trans hg)
    simp only [generationAfter, successes_append, UInt64.toNat_ofNat'] at heq
    omega
  rw [tableAfter_append, tableAfter_of_none hzero]
  exact hok

theorem checkUncached_spec {w : Surroundings} {u p : Bytes} {user : AuthUser}
    (hs : Inv H table Occurs past s) (hu : s.users u = some user) (hp : Occurs p) :
    ∃ t, checkUncached H w (elapsed past) s user ⟨u, H.sha256 p⟩ s.generation p =
        some (verdict H (tableAfter table past) u p, t) ∧
      Inv H table Occurs (past ++ [.check u p w]) t := by
  have hverdict : verdict H (tableAfter table past) u p = checkPBKDF2 H user p := by
    rw [verdict, ← hs.users, hu]
  have hfree : (⟨u, H.sha256 p⟩ : CacheKey) ∉ s.inflight := by
    rw [hs.inflight]
    exact List.not_mem_nil
  have hroom : ¬authPBKDF2Concurrency ≤ s.pbkdf2Sem := by
    rw [hs.sem]
    decide
  unfold checkUncached
  rw [if_neg hfree, if_neg hroom, hverdict]
  refine ⟨_, rfl, ?_⟩
  have hspec := storeCache_spec w (elapsed past + w.start + w.hashing + w.storing)
    { s with inflight := ⟨u, H.sha256 p⟩ :: s.inflight } ⟨u, H.sha256 p⟩
    ⟨elapsed past + w.start + w.hashing +
      (if checkPBKDF2 H user p then authSuccessTTL else authFailureTTL), s.generation,
      checkPBKDF2 H user p⟩
  have hlater : Inv H table Occurs (past ++ [.check u p w]) _ := inv_later hs fun q => by simp
  refine ⟨hspec.users.trans hlater.users, hspec.generation.trans hlater.generation,
    hspec.sem.trans hlater.sem, ?_, fun key entry hl => ?_⟩
  · simp only [hspec.inflight, List.erase_cons_head]
    exact hs.inflight
  · rcases load_of_store (hspec.cache key entry hl) with ⟨rfl, rfl⟩ | ⟨-, hl⟩
    · refine ⟨past ++ [.check u p w], [], p, by simp, hp, rfl, hlater.generation, ?_, ?_⟩
      · have hw : elapsed [.check u p w] = w.start + w.hashing + w.storing := by
          simp [elapsed, Op.duration, Surroundings.duration]
        have httl : (if checkPBKDF2 H user p then authSuccessTTL else authFailureTTL) ≤
            authSuccessTTL := by
          split
          · exact Nat.le_refl _
          · decide
        rw [elapsed_append, hw]
        simp only
        omega
      · rw [← hlater.users, verdict, hu]
    · exact hlater.cache key entry hl

/-- One check answers like the plain one and keeps the history right. -/
theorem checkCredentials_spec {w : Surroundings} {u p : Bytes}
    (hs : Inv H table Occurs past s) (hp : Occurs p)
    (hinj : ∀ p q, Occurs p → Occurs q → H.sha256 p = H.sha256 q → p = q)
    (hspaced : Spaced (past ++ ops)) :
    ∃ t, checkCredentials H w (elapsed past) s u p =
        some (verdict H (tableAfter table past) u p, t) ∧
      Inv H table Occurs (past ++ [.check u p w]) t := by
  have hlater : Inv H table Occurs (past ++ [.check u p w]) _ := inv_later hs fun q => by simp
  unfold checkCredentials
  split
  · rename_i hu
    refine ⟨s, ?_, hlater⟩
    rw [verdict, ← hs.users, hu]
  · rename_i user hu
    dsimp only
    split
    · rename_i entry hl
      split
      · rename_i hhit
        obtain ⟨q, hq, hkey, hok⟩ := entry_current (hs.cache _ entry hl) hspaced
          (hhit.1.trans hs.generation) (Nat.le_add_right _ _) hhit.2
        have hpq : p = q := hinj p q hp hq hkey
        refine ⟨s, ?_, hlater⟩
        rw [hok, hpq]
      · have hshrinks := loadAndDelete_shrinks s ⟨u, H.sha256 p⟩
        rw [← hshrinks.generation]
        exact checkUncached_spec (inv_shrinks hs hshrinks) (by rw [hshrinks.users, hu]) hp
    · exact checkUncached_spec hs hu hp

theorem answers_from (hs : Inv H table Occurs past s)
    (hinj : ∀ p q, Occurs p → Occurs q → H.sha256 p = H.sha256 q → p = q)
    (hin : ∀ p ∈ passwords ops, Occurs p) (hspaced : Spaced (past ++ ops)) :
    answers H (elapsed past) s ops =
      some (plainAnswers H (tableAfter table past) ops) := by
  induction ops generalizing past s with
  | nil => rfl
  | cons op ops ih =>
    have hassoc : past ++ op :: ops = past ++ [op] ++ ops := by simp
    have htime : elapsed (past ++ [op]) = elapsed past + op.duration := by simp [elapsed]
    have htable : tableAfter table (past ++ [op]) =
        tableAfter (tableAfter table past) [op] := tableAfter_append
    cases op with
    | check u p w =>
      obtain ⟨t, ht, hinv⟩ := checkCredentials_spec (w := w) (u := u) hs
        (hin p (by simp [passwords])) hinj hspaced
      have hrest := ih hinv (fun q hq => hin q (by simp only [passwords] at hq ⊢; simp [hq]))
        (by rwa [← hassoc])
      rw [htime] at hrest
      rw [htable] at hrest
      simp only [answers, ht, plainAnswers]
      exact congrArg (Option.map _) hrest
    | reload q =>
      have hrest := ih (inv_reload hs (q := q)) (fun p hp => hin p hp) (by rwa [← hassoc])
      rw [htime] at hrest
      rw [htable] at hrest
      exact hrest
    | advance d =>
      have hlater : Inv H table Occurs (past ++ [.advance d]) _ := inv_later hs fun q => by simp
      have hrest := ih hlater (fun p hp => hin p hp)
        (by rwa [← hassoc])
      rw [htime] at hrest
      rw [htable] at hrest
      exact hrest

/-- Every check in a sequence without overlap answers like the plain check, as long as
the generation counter does not come round within the lifetime of an entry. -/
theorem cached_eq_plain (H : Hashes) (q : Option Rows)
    (s : Store) (ops : List Op) (hnew : newAuthStore q = some s)
    (hinj : ∀ p q, p ∈ passwords ops → q ∈ passwords ops → H.sha256 p = H.sha256 q → p = q)
    (hspaced : Spaced ops) :
    ∃ table, fetched q = some table ∧
      answers H 0 s ops = some (plainAnswers H table ops) := by
  unfold newAuthStore reload at hnew
  cases hq : fetched q with
  | none =>
    rw [hq] at hnew
    cases hnew
  | some table =>
    rw [hq] at hnew
    cases hnew
    have hinv : Inv H table (· ∈ passwords ops) [] ⟨table, 0 + 1, [], 0, 0, []⟩ :=
      ⟨rfl, rfl, rfl, rfl, fun key entry hl => by cases hl⟩
    exact ⟨table, rfl, answers_from hinv hinj (fun p hp => hp) hspaced⟩

/-! ## Two histories -/

/-- The row of `alice`, whose password is `secret123`. -/
def aliceRow : Row :=
  .row AuthStore.alice (ascii "pbkdf2_sha256$1000$salt$hiOXilNU0icI3i1mKj0YexcXv3oI1aPSWt1fe3pSUMU=")

/-- Every key once, in the order of the list. -/
def listOrder : RangeOrder := ⟨fun m => m.map Prod.fst, fun _ => List.Perm.refl _⟩

def still : Surroundings := ⟨0, 0, 0, listOrder, fun _ => listOrder⟩

def checkAlice : Op := .check AuthStore.alice AuthStore.secret still

/-- A check, a cached one, one after its entry has expired, a failed reload, and one
after `alice` has been deleted. -/
def plainHistory : List Op :=
  [checkAlice, checkAlice, .advance (61 * 10 ^ 9), checkAlice, .reload none, checkAlice,
    .reload (some ⟨[], false⟩), checkAlice]

example : (newAuthStore (some ⟨[aliceRow], false⟩)).bind
    (fun s => answers AuthStore.hashes 0 s plainHistory) =
      some [true, true, true, true, false] := by decide +kernel

theorem cached_plain_history : ∃ s table,
    newAuthStore (some ⟨[aliceRow], false⟩) = some s ∧
    fetched (some ⟨[aliceRow], false⟩) = some table ∧
    answers AuthStore.hashes 0 s plainHistory =
      some (plainAnswers AuthStore.hashes table plainHistory) := by
  have hnew : ∃ s, newAuthStore (some ⟨[aliceRow], false⟩) = some s := ⟨_, rfl⟩
  obtain ⟨s, hs⟩ := hnew
  have hinj : ∀ p q, p ∈ passwords plainHistory → q ∈ passwords plainHistory →
      AuthStore.hashes.sha256 p = AuthStore.hashes.sha256 q → p = q := by
    intro p q hp hq _
    simp [passwords, plainHistory, checkAlice] at hp hq
    rw [hp, hq]
  have hspaced : Spaced plainHistory := by
    intro a b c habc hmany
    have hlen := congrArg List.length habc
    simp only [List.length_append] at hlen
    have hle : successes b ≤ b.length := List.countP_le_length
    have hall : plainHistory.length = 8 := rfl
    omega
  obtain ⟨table, ht, ha⟩ := cached_eq_plain AuthStore.hashes _ s plainHistory hs hinj hspaced
  exact ⟨s, table, hs, ht, ha⟩

/-- Reloads of one table leave it, and only count. -/
theorem answers_replicate {q : Option Rows} (h : fetched q = some table) (n : Nat) (time : Nat)
    (hu : s.users = table) :
    answers H time s (List.replicate n (.reload q) ++ ops) =
      answers H time { s with generation := s.generation + UInt64.ofNat n } ops := by
  induction n generalizing s with
  | zero =>
    have hz : s.generation + UInt64.ofNat 0 = s.generation := UInt64.add_zero _
    rw [hz]
    rfl
  | succ n ih =>
    have hr : reload q s = (true, { s with users := table, generation := s.generation + 1 }) := by
      rw [reload, h]
    rw [List.replicate_succ, List.cons_append, answers, hr, ih rfl, ← hu]
    congr 2
    rw [UInt64.add_assoc, Nat.add_comm n 1, UInt64.ofNat_add]
    rfl

theorem plainAnswers_replicate {q : Option Rows} (h : fetched q = some table) (n : Nat) :
    plainAnswers H table (List.replicate n (.reload q) ++ ops) = plainAnswers H table ops := by
  induction n with
  | zero => rfl
  | succ n ih =>
    rw [List.replicate_succ, List.cons_append, plainAnswers, h]
    exact ih

/-- The row of `alice` after she has changed her password to `changed456`. -/
def changedRows : Option Rows :=
  some ⟨[.row AuthStore.alice
    (ascii "pbkdf2_sha256$1000$salt$dPL9dBOAM8VAP3UUrTwySQ68crPBAGR3A/5JL6qAWJk=")], false⟩

/-- After `alice` has changed her password `n` more reloads succeed while the clock
stands still. -/
def reloadedHistory (n : Nat) : List Op :=
  checkAlice :: .reload changedRows :: (List.replicate n (.reload changedRows) ++ [checkAlice])

/-- `alice`'s first check is cached under its generation, and answered from there. -/
theorem check_cached {table : Table} {key : Bytes} (g : UInt64)
    (h : table AuthStore.alice = some ⟨1000, AuthStore.salt, key⟩) :
    checkCredentials AuthStore.hashes still 0
      ⟨table, g, [(⟨AuthStore.alice, AuthStore.secretDigest⟩, ⟨60 * 10 ^ 9, g, true⟩)], 1, 0, []⟩
      AuthStore.alice AuthStore.secret =
    some (true, ⟨table, g,
      [(⟨AuthStore.alice, AuthStore.secretDigest⟩, ⟨60 * 10 ^ 9, g, true⟩)], 1, 0, []⟩) := by
  have hl : load [((⟨AuthStore.alice, AuthStore.secretDigest⟩ : CacheKey),
      (⟨60 * 10 ^ 9, g, true⟩ : CacheEntry))]
      ⟨AuthStore.alice, AuthStore.hashes.sha256 AuthStore.secret⟩ =
      some ⟨60 * 10 ^ 9, g, true⟩ := rfl
  have hvalid : 0 + still.start < 60 * 10 ^ 9 := by decide
  simp only [checkCredentials, h, hl]
  rw [if_pos ⟨trivial, hvalid⟩]

/-- When the counter comes round, the first verdict is given once more. -/
theorem answers_reloaded {table changed : Table} (n : Nat)
    (huser : table AuthStore.alice = some ⟨1000, AuthStore.salt, AuthStore.secretKey⟩)
    (hc : fetched changedRows = some changed)
    (hchanged : changed AuthStore.alice = some ⟨1000, AuthStore.salt, AuthStore.changedKey⟩)
    (hn : (1 + 1 : UInt64) + UInt64.ofNat n = 1) :
    answers AuthStore.hashes 0 ⟨table, 1, [], 0, 0, []⟩ (reloadedHistory n) =
      some [true, true] := by
  have hfirst : checkCredentials AuthStore.hashes still 0 ⟨table, 1, [], 0, 0, []⟩
      AuthStore.alice AuthStore.secret = some (true, ⟨table, 1,
        [(⟨AuthStore.alice, AuthStore.secretDigest⟩, ⟨60 * 10 ^ 9, 1, true⟩)], 1, 0, []⟩) := by
    simp only [checkCredentials, huser]
    rfl
  have htime : 0 + still.duration = 0 := rfl
  rw [reloadedHistory, checkAlice, answers, hfirst]
  simp only [htime]
  rw [answers, reload, hc]
  dsimp only
  rw [answers_replicate hc n 0 rfl]
  simp only [hn]
  rw [answers, check_cached 1 hchanged]
  rfl

theorem plainAnswers_reloaded {table changed : Table} (n : Nat)
    (huser : table AuthStore.alice = some ⟨1000, AuthStore.salt, AuthStore.secretKey⟩)
    (hc : fetched changedRows = some changed)
    (hchanged : changed AuthStore.alice = some ⟨1000, AuthStore.salt, AuthStore.changedKey⟩) :
    plainAnswers AuthStore.hashes table (reloadedHistory n) = [true, false] := by
  have hv : verdict AuthStore.hashes table AuthStore.alice AuthStore.secret = true := by
    rw [verdict, huser]
    decide
  have hv' : verdict AuthStore.hashes changed AuthStore.alice AuthStore.secret = false := by
    rw [verdict, hchanged]
    decide
  rw [reloadedHistory, checkAlice, plainAnswers, plainAnswers, hc, Option.getD_some,
    plainAnswers_replicate hc, plainAnswers, plainAnswers, hv, hv']

theorem cached_wrapped : ∃ s table,
    newAuthStore (some ⟨[aliceRow], false⟩) = some s ∧
    fetched (some ⟨[aliceRow], false⟩) = some table ∧
    answers AuthStore.hashes 0 s (reloadedHistory (2 ^ 64 - 1)) = some [true, true] ∧
    plainAnswers AuthStore.hashes table (reloadedHistory (2 ^ 64 - 1)) = [true, false] := by
  obtain ⟨table, ht, huser⟩ : ∃ table, fetched (some ⟨[aliceRow], false⟩) = some table ∧
      table AuthStore.alice = some ⟨1000, AuthStore.salt, AuthStore.secretKey⟩ :=
    ⟨_, rfl, by decide +kernel⟩
  obtain ⟨changed, hc, hchanged⟩ : ∃ changed, fetched changedRows = some changed ∧
      changed AuthStore.alice = some ⟨1000, AuthStore.salt, AuthStore.changedKey⟩ :=
    ⟨_, rfl, by decide +kernel⟩
  refine ⟨⟨table, 1, [], 0, 0, []⟩, table, ?_, ht, ?_, ?_⟩
  · rw [newAuthStore, reload, ht]
    rfl
  · exact answers_reloaded _ huser hc hchanged (by decide)
  · exact plainAnswers_reloaded _ huser hc hchanged

end SplitProxy.AuthSequential
