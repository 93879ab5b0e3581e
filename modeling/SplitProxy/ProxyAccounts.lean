import Mathlib.Data.List.Pairwise
import SplitProxy.AddressText
import SplitProxy.AuthSequential
import SplitProxy.Base64
import SplitProxy.DirectName

/-!
# Proxy accounts

The table `core_proxy` under the requests of the admin API, the form in which it holds
a password, and the users a reload of the proxy makes of it.
-/
namespace SplitProxy.ProxyAccounts

open GoText NetIP HTTPConnect Admin AuthSequential Base64
open AuthStore (Hashes Table AuthUser verdict checkPBKDF2)

/-- Django's PBKDF2 hasher over SHA-256. -/
structure Hasher where
  hashes : Hashes
  iterations : Nat
  positive : 0 < iterations
  bounded : iterations < 2 ^ 63
  keyLength : ∀ password salt n length, (hashes.pbkdf2 password salt n length).length = length

/-- The hasher refuses a salt with a dollar sign. -/
abbrev Salt := { s : Bytes // dollar ∉ s }

def Hasher.key (K : Hasher) (salt : Salt) (password : Bytes) : Bytes :=
  K.hashes.pbkdf2 password salt.1 K.iterations 32

/-- `make_password`. -/
def makePassword (K : Hasher) (salt : Salt) (password : Bytes) : Bytes :=
  ascii "pbkdf2_sha256" ++ dollar :: (itoa K.iterations ++
    dollar :: (salt.1 ++ dollar :: encodeToString (K.key salt password)))

/-- A row of `core_proxy`. -/
structure Proxy where
  pk : Nat
  username : Bytes
  password : Bytes
  deriving DecidableEq, Repr

structure Store where
  proxies : List Proxy
  nextPk : Nat
  deriving DecidableEq, Repr

/-- After the migrations. -/
def installed (K : Hasher) (salt : Salt) : Store :=
  ⟨[⟨1, ascii "test-proxy", makePassword K salt (ascii "test-proxy-password")⟩], 2⟩

/-! ## `ProxySerializer` -/

/-- The `username` of the model, with its `UniqueValidator`; `self` is the row being updated. -/
def usernameField (s : Store) (self : Option Nat) (username : Bytes) : Option Bytes :=
  (charField 255 username).filter fun name =>
    s.proxies.all fun p => some p.pk = self ∨ p.username ≠ name

/-- `CharField(write_only=True, required=True, min_length=8)`. -/
def passwordField (password : Bytes) : Option Bytes :=
  let text := strip password
  if text = [] then none
  else if (decode text).length < 8 then none
  else if (0x00 : UInt8) ∈ text then none
  else some text

/-- A field of a partial update. -/
def partialField (field : Bytes → Option Bytes) : Option Bytes → Option (Option Bytes)
  | none => some none
  | some text => (field text).map some

/-- The fields of the body that are there; the salt is the one `make_password` draws. -/
inductive Request where
  | create (username password : Option Bytes) (salt : Salt)
  | update (pk : Nat) (username password : Option Bytes) (salt : Salt)
  | destroy (pk : Nat)

inductive Response where
  | proxy (status pk : Nat) (username : Bytes)
  | noContent
  | invalid
  | notFound
  deriving DecidableEq, Repr

/-- The row `CreateUpdatePasswordMixin.update` saves. -/
def updated (K : Hasher) (p : Proxy) (username password : Option Bytes) (salt : Salt) : Proxy where
  pk := p.pk
  username := username.getD p.username
  password := (password.map (makePassword K salt)).getD p.password

def handle (K : Hasher) (s : Store) : Request → Response × Store
  | .create username password salt =>
    match username.bind (usernameField s none), password.bind passwordField with
    | some username, some password =>
      (.proxy 201 s.nextPk username,
        ⟨s.proxies ++ [⟨s.nextPk, username, makePassword K salt password⟩], s.nextPk + 1⟩)
    | _, _ => (.invalid, s)
  | .update pk username password salt =>
    match s.proxies.find? (·.pk = pk) with
    | none => (.notFound, s)
    | some p =>
      match partialField (usernameField s (some pk)) username, partialField passwordField password with
      | some username, some password =>
        let new := updated K p username password salt
        (.proxy 200 pk new.username,
          { s with proxies := s.proxies.map fun q => if q.pk = pk then new else q })
      | _, _ => (.invalid, s)
  | .destroy pk =>
    if s.proxies.any (·.pk = pk) then
      (.noContent, { s with proxies := s.proxies.filter (·.pk ≠ pk) })
    else (.notFound, s)

def run (K : Hasher) (s : Store) (requests : List Request) : Store :=
  requests.foldl (fun s r => (handle K s r).2) s

/-- The request is not about this account. -/
def Request.Spares (pk : Nat) : Request → Prop
  | .create _ _ _ => True
  | .update k _ _ _ => k ≠ pk
  | .destroy k => k ≠ pk

/-! ## One account for each name -/

/-- Keys and names are all different, and every name is trimmed. -/
structure Inv (s : Store) : Prop where
  distinct : s.proxies.Pairwise fun p q => p.pk ≠ q.pk ∧ p.username ≠ q.username
  fresh : ∀ p ∈ s.proxies, p.pk < s.nextPk
  trimmed : ∀ p ∈ s.proxies, strip p.username = p.username

variable {K : Hasher} {s : Store} {r : Request}

theorem usernameField_some {self : Option Nat} {text name : Bytes}
    (h : usernameField s self text = some name) :
    name = strip text ∧ ∀ p ∈ s.proxies, some p.pk ≠ self → p.username ≠ name := by
  obtain ⟨hf, hall⟩ := Option.filter_eq_some_iff.mp h
  simp only [charField, Option.ite_none_left_eq_some, Option.some.injEq] at hf
  refine ⟨hf.2.2.2.symm, fun p hp hself => ?_⟩
  have hp := List.all_eq_true.mp hall p hp
  simp only [decide_eq_true_eq] at hp
  exact hp.resolve_left hself

theorem passwordField_some {text password : Bytes} (h : passwordField text = some password) :
    password = strip text := by
  simp only [passwordField, Option.ite_none_left_eq_some, Option.some.injEq] at h
  exact h.2.2.2.symm

theorem inv_installed (salt : Salt) : Inv (installed K salt) := by
  refine ⟨List.pairwise_singleton _ _, ?_, ?_⟩ <;> intro p hp <;> rw [List.mem_singleton.mp hp]
  · exact Nat.one_lt_two
  · have hname : strip (ascii "test-proxy") = ascii "test-proxy" := by decide +kernel
    exact hname

/-- A name that is free but for its own row goes into that row. -/
theorem inv_put {p new : Proxy} (hi : Inv s) (hp : p ∈ s.proxies) (hpk : new.pk = p.pk)
    (hname : new.username = p.username ∨ strip new.username = new.username ∧
      ∀ q ∈ s.proxies, q.pk ≠ p.pk → q.username ≠ new.username) :
    Inv { s with proxies := s.proxies.map fun q => if q.pk = p.pk then new else q } := by
  have hother : ∀ q ∈ s.proxies, q.pk ≠ p.pk → q.username ≠ new.username := by
    intro q hq hne
    rcases hname with hname | ⟨-, hfree⟩
    · have hsymm : Std.Symm fun p q : Proxy => p.pk ≠ q.pk ∧ p.username ≠ q.username :=
        ⟨fun a b h => ⟨h.1.symm, h.2.symm⟩⟩
      rw [hname]
      exact (hi.distinct.forall hq hp fun he => hne (congrArg Proxy.pk he)).2
    · exact hfree q hq hne
  refine ⟨?_, ?_, ?_⟩
  · refine List.pairwise_map.mpr (hi.distinct.imp_of_mem fun {a b} ha hb hab => ?_)
    by_cases hea : a.pk = p.pk
    · have heb : b.pk ≠ p.pk := fun he => hab.1 (hea.trans he.symm)
      rw [if_pos hea, if_neg heb, hpk]
      exact ⟨heb.symm, (hother b hb heb).symm⟩
    · by_cases heb : b.pk = p.pk
      · rw [if_neg hea, if_pos heb, hpk]
        exact ⟨hea, hother a ha hea⟩
      · rw [if_neg hea, if_neg heb]
        exact hab
  · intro q hq
    obtain ⟨q₀, hq₀, rfl⟩ := List.mem_map.mp hq
    split
    · rw [hpk]
      exact hi.fresh p hp
    · exact hi.fresh q₀ hq₀
  · intro q hq
    obtain ⟨q₀, hq₀, rfl⟩ := List.mem_map.mp hq
    split
    · rcases hname with hname | ⟨htrim, -⟩
      · rw [hname]
        exact hi.trimmed p hp
      · exact htrim
    · exact hi.trimmed q₀ hq₀

/-- All a request can do to the table. -/
inductive Effect (s : Store) (r : Request) : Store → Prop where
  | same : Effect s r s
  | added (name password : Bytes) (htrim : strip name = name)
      (hfree : ∀ p ∈ s.proxies, p.username ≠ name) :
      Effect s r ⟨s.proxies ++ [⟨s.nextPk, name, password⟩], s.nextPk + 1⟩
  | put (p new : Proxy) (hp : p ∈ s.proxies) (hspares : ¬r.Spares p.pk) (hpk : new.pk = p.pk)
      (hname : new.username = p.username ∨ strip new.username = new.username ∧
        ∀ q ∈ s.proxies, q.pk ≠ p.pk → q.username ≠ new.username) :
      Effect s r { s with proxies := s.proxies.map fun q => if q.pk = p.pk then new else q }
  | removed (pk : Nat) (hspares : ¬r.Spares pk) :
      Effect s r { s with proxies := s.proxies.filter (·.pk ≠ pk) }

theorem handle_effect (K : Hasher) (s : Store) (r : Request) : Effect s r (handle K s r).2 := by
  cases r with
  | create username password salt =>
    simp only [handle]
    split
    · rename_i name password hu hp
      obtain ⟨text, -, hf⟩ := Option.bind_eq_some_iff.mp hu
      obtain ⟨rfl, hfree⟩ := usernameField_some hf
      exact .added _ _ (strip_strip text) fun p hp => hfree p hp (by simp)
    · exact .same
  | update pk username password salt =>
    simp only [handle]
    split
    · exact .same
    · rename_i p hfind
      have hpk : p.pk = pk := by simpa using List.find?_some hfind
      subst hpk
      split
      · rename_i name password' hu hp
        refine .put p _ (List.mem_of_find?_eq_some hfind) (by simp [Request.Spares]) rfl ?_
        cases username with
        | none =>
          cases hu
          exact .inl rfl
        | some text =>
          obtain ⟨name', hf, rfl⟩ := Option.map_eq_some_iff.mp hu
          obtain ⟨rfl, hfree⟩ := usernameField_some hf
          exact .inr ⟨strip_strip text, fun q hq hne => hfree q hq (by simpa using hne)⟩
      · exact .same
  | destroy pk =>
    simp only [handle]
    split
    · exact .removed pk (by simp [Request.Spares])
    · exact .same

theorem inv_effect {t : Store} (hi : Inv s) (h : Effect s r t) : Inv t := by
  cases h with
  | same => exact hi
  | added name password htrim hfree =>
    refine ⟨?_, ?_, ?_⟩
    · refine List.pairwise_append.mpr ⟨hi.distinct, List.pairwise_singleton _ _, ?_⟩
      intro p hp q hq
      rw [List.mem_singleton.mp hq]
      exact ⟨Nat.ne_of_lt (hi.fresh p hp), hfree p hp⟩
    · intro p hp
      rcases List.mem_append.mp hp with hp | hp
      · exact Nat.lt_succ_of_lt (hi.fresh p hp)
      · rw [List.mem_singleton.mp hp]
        exact Nat.lt_succ_self _
    · intro p hp
      rcases List.mem_append.mp hp with hp | hp
      · exact hi.trimmed p hp
      · rw [List.mem_singleton.mp hp]
        exact htrim
  | put p new hp _ hpk hname => exact inv_put hi hp hpk hname
  | removed pk _ =>
    exact ⟨hi.distinct.filter _, fun p hp => hi.fresh p (List.mem_of_mem_filter hp),
      fun p hp => hi.trimmed p (List.mem_of_mem_filter hp)⟩

theorem inv_run (hi : Inv s) (requests : List Request) : Inv (run K s requests) := by
  induction requests generalizing s with
  | nil => exact hi
  | cons r requests ih => exact ih (inv_effect hi (handle_effect K s r))

/-- Requests about other accounts leave a row where it is. -/
theorem mem_effect {t : Store} {p : Proxy} (hp : p ∈ s.proxies) (hr : r.Spares p.pk)
    (h : Effect s r t) : p ∈ t.proxies := by
  cases h with
  | same => exact hp
  | added name password htrim hfree => exact List.mem_append_left _ hp
  | put q new _ hno hpk hname =>
    have hne : p.pk ≠ q.pk := fun he => hno (he ▸ hr)
    exact List.mem_map.mpr ⟨p, hp, if_neg hne⟩
  | removed pk hno =>
    have hne : p.pk ≠ pk := fun he => hno (he ▸ hr)
    exact List.mem_filter.mpr ⟨hp, decide_eq_true hne⟩

theorem mem_run {p : Proxy} {requests : List Request} (hp : p ∈ s.proxies)
    (hspares : ∀ r ∈ requests, r.Spares p.pk) : p ∈ (run K s requests).proxies := by
  induction requests generalizing s with
  | nil => exact hp
  | cons r requests ih =>
    have hr := hspares r List.mem_cons_self
    exact ih (mem_effect hp hr (handle_effect K s r))
      fun r' hr' => hspares r' (List.mem_cons_of_mem r hr')

/-- What a creation the API answers with 201 leaves in the table. -/
theorem created {b : Store} {username password name : Bytes} {salt : Salt} {status pk : Nat}
    (h : handle K s (.create (some username) (some password) salt) =
      (.proxy status pk name, b)) :
    ⟨pk, strip username, makePassword K salt (strip password)⟩ ∈ b.proxies := by
  simp only [handle, Option.bind_some] at h
  split at h
  · rename_i name' password' hu hp
    cases h
    obtain ⟨rfl, -⟩ := usernameField_some hu
    rw [passwordField_some hp]
    exact List.mem_append_right _ List.mem_cons_self
  · cases h

/-! ## What a reload makes of the table -/

/-- `parsePBKDF2` takes apart what `make_password` put together. -/
theorem parsePBKDF2_makePassword (K : Hasher) (salt : Salt) (password : Bytes) :
    parsePBKDF2 (makePassword K salt password) =
      some ⟨K.iterations, salt.1, K.key salt password⟩ := by
  have halgorithm : dollar ∉ ascii "pbkdf2_sha256" := by decide
  have hiterations : dollar ∉ itoa K.iterations := by
    intro h
    exact absurd ((decimal_some (decimal_itoa K.iterations)).2 dollar h) (by decide)
  have hsplit : splitFour (makePassword K salt password) =
      some (ascii "pbkdf2_sha256", itoa K.iterations, salt.1,
        encodeToString (K.key salt password)) := by
    simp only [splitFour, makePassword, splitFirst_append halgorithm,
      splitFirst_append hiterations, splitFirst_append salt.2, Option.bind_some, Option.map_some]
  have hpositive : ¬(K.iterations : Int) ≤ 0 := by
    have := K.positive
    omega
  have hlength : (K.key salt password).length = 32 := K.keyLength _ _ _ _
  simp only [parsePBKDF2, hsplit, ne_eq, not_true_eq_false, ↓reduceIte, atoi_itoa K.bounded,
    hpositive, decodeString_encodeToString, hlength, Int.toNat_natCast]

def Proxy.row (p : Proxy) : Row := .row p.username p.password

/-- A query that delivers the rows, in some order, gave the proxy this table. -/
def Loaded (s : Store) (table : Table) : Prop :=
  ∃ l : List Proxy, l.Perm s.proxies ∧ fetched (some ⟨l.map Proxy.row, false⟩) = some table

theorem collect_proxies (l : List Proxy) (users : Table) :
    ∃ table, collect (l.map Proxy.row) users = some table ∧
      (∀ u, (∀ p ∈ l, p.username ≠ u) → table u = users u) ∧
      (l.Pairwise (fun p q => p.username ≠ q.username) →
        ∀ p ∈ l, ∀ user, parsePBKDF2 p.password = some user → table p.username = some user) := by
  induction l generalizing users with
  | nil => exact ⟨users, rfl, fun _ _ => rfl, fun _ p hp => absurd hp List.not_mem_nil⟩
  | cons q l ih =>
    simp only [List.map_cons, Proxy.row, collect]
    cases hq : parsePBKDF2 q.password with
    | none =>
      obtain ⟨table, ht, hother, hin⟩ := ih users
      refine ⟨table, ht, fun u hu => hother u fun p hp => hu p (List.mem_cons_of_mem q hp), ?_⟩
      intro hpair p hp user huser
      rcases List.mem_cons.mp hp with rfl | hp
      · rw [hq] at huser
        cases huser
      · exact hin (List.pairwise_cons.mp hpair).2 p hp user huser
    | some own =>
      obtain ⟨table, ht, hother, hin⟩ := ih (Function.update users q.username (some own))
      refine ⟨table, ht, fun u hu => ?_, ?_⟩
      · rw [hother u fun p hp => hu p (List.mem_cons_of_mem q hp),
          Function.update_of_ne (hu q List.mem_cons_self).symm]
      · intro hpair p hp user huser
        obtain ⟨hfirst, hrest⟩ := List.pairwise_cons.mp hpair
        rcases List.mem_cons.mp hp with rfl | hp
        · rw [hq] at huser
          cases huser
          rw [hother p.username fun p' hp' => (hfirst p' hp').symm, Function.update_self]
        · exact hin hrest p hp user huser

/-- A loaded table knows an account under its name, and nobody under another. -/
theorem loaded_spec {table : Table} (hi : Inv s) (h : Loaded s table) :
    (∀ u, (∀ p ∈ s.proxies, p.username ≠ u) → table u = none) ∧
      ∀ p ∈ s.proxies, ∀ user, parsePBKDF2 p.password = some user →
        table p.username = some user := by
  obtain ⟨l, hperm, hfetched⟩ := h
  obtain ⟨table', ht, hother, hin⟩ := collect_proxies l fun _ => none
  have heq : table' = table := by
    simpa [fetched, ht] using hfetched
  subst heq
  have hdistinct : l.Pairwise fun p q => p.username ≠ q.username := by
    refine hperm.pairwise_iff ?_ |>.mpr (hi.distinct.imp fun h => h.2)
    exact fun h => h.symm
  exact ⟨fun u hu => hother u fun p hp => hu p (hperm.subset hp),
    fun p hp => hin hdistinct p (hperm.symm.subset hp)⟩

/-- After a reload, the plain check of the text a client presents for a created account. -/
theorem verdict_created {table : Table} {pk : Nat} {username password : Bytes} {salt : Salt}
    (hi : Inv s)
    (hp : ⟨pk, strip username, makePassword K salt (strip password)⟩ ∈ s.proxies)
    (h : Loaded s table) :
    verdict K.hashes table username password = true ↔
      strip username = username ∧ K.key salt password = K.key salt (strip password) := by
  obtain ⟨hother, hin⟩ := loaded_spec hi h
  by_cases htrim : strip username = username
  · have huser := hin _ hp _ (parsePBKDF2_makePassword K salt (strip password))
    simp only [htrim] at huser
    have hlength : (K.key salt (strip password)).length = 32 := K.keyLength _ _ _ _
    rw [verdict, huser]
    simp only [checkPBKDF2, hlength, decide_eq_true_eq, htrim, true_and]
    rfl
  · -- no name in the table has white space around it
    have hnone : table username = none := by
      refine hother username fun p hmem he => htrim ?_
      rw [← he]
      exact hi.trimmed p hmem
    rw [verdict, hnone]
    exact ⟨fun h => absurd h Bool.false_ne_true, fun h => absurd h.1 htrim⟩

end SplitProxy.ProxyAccounts
