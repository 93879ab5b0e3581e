import SplitProxy.HandleConn
import SplitProxy.ProxyAccounts
import SplitProxy.RequestGrammar

/-!
# Logging in

The credentials of an account on their way into the proxy: the Basic header, the SOCKS5
sub-negotiation, and `CheckCredentials` over a store that has loaded the accounts.
-/
namespace SplitProxy.ProxyLogin

open GoText NetIP Socks5 AuthSequential Base64 ProxyAccounts
open HTTPConnect (ascii basicCredentials isBasic)
open Admin (strip)
open AuthStore (Hashes Table verdict)
open HandleConn (Library)

/-! ## The store behind the proxy -/

/-- The store that a sequence of operations leaves; `none` when a check never returns. -/
def storeAfter (H : Hashes) (time : Nat) (s : AuthSequential.Store) :
    List Op → Option AuthSequential.Store
  | [] => some s
  | .check username password w :: rest =>
    match checkCredentials H w time s username password with
    | none => none
    | some (_, s) => storeAfter H (time + w.duration) s rest
  | .reload q :: rest => storeAfter H time (reload q s).2 rest
  | .advance d :: rest => storeAfter H (time + d) s rest

/-- What `CheckCredentials` answers. -/
def answer (H : Hashes) (w : Surroundings) (time : Nat) (s : AuthSequential.Store)
    (username password : Bytes) : Bool :=
  match checkCredentials H w time s username password with
  | none => false
  | some (ok, _) => ok

/-- These operations have run since the proxy started, and the table loaded last is
that of the accounts. -/
structure Synced (H : Hashes) (accounts : ProxyAccounts.Store) (ops : List Op)
    (s : AuthSequential.Store) : Prop where
  reached : ∃ q s₀ table, newAuthStore q = some s₀ ∧ fetched q = some table ∧
    storeAfter H 0 s₀ ops = some s ∧ Loaded accounts (tableAfter table ops)
  spaced : Spaced ops

/-! ## The two protocols -/

/-- The header of a client: base64 of `username:password`. -/
def authorization (username password : Bytes) : Bytes :=
  ascii "Basic " ++ encodeToString (username ++ colon :: password)

/-- `CheckAuthUser` accepts the header, and takes the client for this user. -/
def LogsInHTTP (L : Library) (P : HandleConn.Proxy) (username password : Bytes) : Prop :=
  ∀ s req, s.pc = .authorizing req → req.proxyAuthorization = [authorization username password] →
    ∃ t, HandleConn.step L P s .checkAuthUser = some t ∧ t.pc = .serving req username

/-- Some message is read by `authenticateSOCKS5` as these credentials, and accepted. -/
def LogsInSOCKS5 (L : Library) (P : HandleConn.Proxy) (username password : Bytes) : Prop :=
  ∃ message, ∀ s rest, s.pc = .negotiating → s.input = message ++ rest →
    readCredentials s.input = some (username, password, rest) ∧
      ∃ t, HandleConn.step L P s (.authenticate true) = some t ∧ t.pc = .commanding username

variable {L : Library} {P : HandleConn.Proxy} {username password : Bytes}

theorem basicCredentials_authorization (username password : Bytes) :
    basicCredentials [authorization username password] =
      splitFirst colon (username ++ colon :: password) := by
  have hscheme : (0x20 : UInt8) ∉ ascii "Basic" := by decide
  have hbasic : isBasic (ascii "Basic") = true := by decide
  have hsplit : splitFirst 0x20 (authorization username password) =
      some (ascii "Basic", encodeToString (username ++ colon :: password)) :=
    splitFirst_append hscheme _
  simp only [basicCredentials, hsplit, hbasic, ↓reduceIte, decodeString_encodeToString,
    Option.bind_some]

/-- Only a name without a colon arrives as it was sent. -/
theorem logsInHTTP_iff : LogsInHTTP L P username password ↔
    colon ∉ username ∧ P.checkCredentials username password = true := by
  have hread := basicCredentials_authorization username password
  constructor
  · intro h
    obtain ⟨t, ht, hpc⟩ := h ⟨.authorizing ⟨[], [], [], [authorization username password]⟩, [], []⟩
      ⟨[], [], [], [authorization username password]⟩ rfl rfl
    simp only [HandleConn.step, hread] at ht
    cases hsplit : splitFirst colon (username ++ colon :: password) with
    | none =>
      rw [hsplit] at ht
      cases ht
      cases hpc
    | some c =>
      obtain ⟨u, p⟩ := c
      rw [hsplit] at ht
      simp only at ht
      split at ht
      · rename_i hok
        cases ht
        cases hpc
        obtain ⟨-, hno⟩ := splitFirst_some hsplit
        rw [splitFirst_append hno] at hsplit
        cases hsplit
        exact ⟨hno, hok⟩
      · cases ht
        cases hpc
  · rintro ⟨hno, hok⟩ s req hpc hreq
    rw [splitFirst_append hno] at hread
    simp only [HandleConn.step, hpc, hreq, hread, hok, ↓reduceIte, Option.some.injEq]
    exact ⟨_, rfl, rfl⟩

theorem readCredentials_subnegotiation (hu : username.length < 0x100)
    (hp : password.length < 0x100) (rest : Bytes) :
    readCredentials (subnegotiation username password ++ rest) =
      some (username, password, rest) := by
  have hname := readLengthPrefixed_iff.mpr
    ⟨(List.append_assoc (lengthPrefixed username) (lengthPrefixed password) rest), hu⟩
  have hpass := readLengthPrefixed_iff.mpr ⟨(rfl : lengthPrefixed password ++ rest = _), hp⟩
  have hversion : ∀ x : Bytes, readByte (0x01 :: x) = some (0x01, x) := fun _ => rfl
  rw [subnegotiation, List.cons_append, readCredentials, hversion]
  simp only [ne_eq, not_true_eq_false, ↓reduceIte, hname, hpass]

/-- Only what a byte can count arrives at all. -/
theorem logsInSOCKS5_iff : LogsInSOCKS5 L P username password ↔
    username.length ≤ 255 ∧ password.length ≤ 255 ∧
      P.checkCredentials username password = true := by
  constructor
  · rintro ⟨message, h⟩
    obtain ⟨hread, t, ht, hpc⟩ := h ⟨.negotiating, message, []⟩ [] rfl (List.append_nil _).symm
    obtain ⟨-, hu, hp⟩ := readCredentials_some hread
    refine ⟨Nat.le_of_lt_succ hu, Nat.le_of_lt_succ hp, ?_⟩
    simp only [HandleConn.step, ↓reduceIte, HandleConn.authenticated, hread] at ht
    split at ht
    · rename_i hok
      exact hok
    · cases ht
      cases hpc
  · rintro ⟨hu, hp, hok⟩
    refine ⟨subnegotiation username password, fun s rest hpc hinput => ?_⟩
    have hread := readCredentials_subnegotiation (Nat.lt_succ_of_le hu) (Nat.lt_succ_of_le hp) rest
    rw [← hinput] at hread
    refine ⟨hread, ?_⟩
    simp only [HandleConn.step, hpc, ↓reduceIte, HandleConn.authenticated, hread, hok]
    exact ⟨_, rfl, rfl⟩

/-! ## A synced proxy checks against the accounts -/

variable {H : Hashes} {table : Table} {Occurs : Bytes → Prop} {past ops : List Op}
  {s t : AuthSequential.Store}

theorem inv_storeAfter (hs : AuthSequential.Inv H table Occurs past s)
    (hinj : ∀ p q, Occurs p → Occurs q → H.sha256 p = H.sha256 q → p = q)
    (hin : ∀ p ∈ passwords ops, Occurs p) (hspaced : Spaced (past ++ ops))
    (h : storeAfter H (elapsed past) s ops = some t) :
    AuthSequential.Inv H table Occurs (past ++ ops) t := by
  induction ops generalizing past s with
  | nil =>
    cases h
    rw [List.append_nil]
    exact hs
  | cons op ops ih =>
    have hassoc : past ++ op :: ops = past ++ [op] ++ ops := by simp
    have htime : elapsed (past ++ [op]) = elapsed past + op.duration := by simp [elapsed]
    rw [hassoc] at hspaced ⊢
    cases op with
    | check u p w =>
      obtain ⟨s', hs', hinv⟩ := checkCredentials_spec (w := w) (u := u) hs
        (hin p (by simp [passwords])) hinj (by rwa [List.append_assoc] at hspaced)
      simp only [storeAfter, hs'] at h
      exact ih hinv (fun q hq => hin q (by simp only [passwords] at hq ⊢; simp [hq])) hspaced
        (htime ▸ h)
    | reload q => exact ih (inv_reload hs) (fun p hp => hin p hp) hspaced (htime ▸ h)
    | advance d =>
      exact ih (inv_later hs fun q => by simp) (fun p hp => hin p hp) hspaced (htime ▸ h)

theorem answer_synced {accounts : ProxyAccounts.Store} (w : Surroundings) (username : Bytes)
    (hsync : Synced H accounts ops s)
    (hinj : ∀ p q, p ∈ password :: passwords ops → q ∈ password :: passwords ops →
      H.sha256 p = H.sha256 q → p = q) :
    ∃ table, Loaded accounts table ∧
      answer H w (elapsed ops) s username password = verdict H table username password := by
  obtain ⟨q, s₀, table, hnew, hfetched, hafter, hloaded⟩ := hsync.reached
  refine ⟨_, hloaded, ?_⟩
  have hstart : AuthSequential.Inv H table (· ∈ password :: passwords ops) [] s₀ := by
    simp only [newAuthStore, reload, hfetched, Option.some.injEq] at hnew
    subst hnew
    exact ⟨rfl, rfl, rfl, rfl, fun key entry hl => by cases hl⟩
  have hinv := inv_storeAfter hstart hinj (fun p hp => List.mem_cons_of_mem password hp)
    hsync.spaced hafter
  have hspaced : Spaced ([] ++ ops ++ []) := by
    rw [List.append_nil]
    exact hsync.spaced
  obtain ⟨t, ht, -⟩ := checkCredentials_spec (w := w) (u := username) hinv List.mem_cons_self hinj
    hspaced
  rw [List.nil_append] at ht
  rw [answer, ht]

/-- Exactly these accounts can log in over both protocols with what was typed into the panel. -/
theorem created_logs_in_iff (K : Hasher) (L : Library) (P : HandleConn.Proxy)
    (first salt : Salt) (before later : List ProxyAccounts.Request) (username password name : Bytes) (pk : Nat)
    (accounts : ProxyAccounts.Store) (ops : List Op) (s : AuthSequential.Store) (w : Surroundings)
    (hcreate : handle K (run K (installed K first) before)
      (.create (some username) (some password) salt) = (.proxy 201 pk name, accounts))
    (hlater : ∀ r ∈ later, r.Spares pk)
    (hsync : Synced K.hashes (run K accounts later) ops s)
    (hinj : ∀ p q, p ∈ password :: passwords ops → q ∈ password :: passwords ops →
      K.hashes.sha256 p = K.hashes.sha256 q → p = q) :
    (LogsInHTTP L { P with checkCredentials := answer K.hashes w (elapsed ops) s }
        username password ∧
      LogsInSOCKS5 L { P with checkCredentials := answer K.hashes w (elapsed ops) s }
        username password) ↔
      colon ∉ username ∧ username.length ≤ 255 ∧ password.length ≤ 255 ∧
        strip username = username ∧ K.key salt password = K.key salt (strip password) := by
  have hinv : ProxyAccounts.Inv (run K accounts later) := by
    have hstep := inv_effect (inv_run (inv_installed first) before)
      (handle_effect K (run K (installed K first) before)
        (.create (some username) (some password) salt))
    rw [hcreate] at hstep
    exact inv_run hstep later
  have hrow := mem_run (K := K) (created hcreate) hlater
  obtain ⟨table, hloaded, hanswer⟩ := answer_synced w username hsync hinj
  have hverdict := verdict_created hinv hrow hloaded
  rw [logsInHTTP_iff, logsInSOCKS5_iff]
  simp only [hanswer, hverdict]
  constructor
  · rintro ⟨⟨hcolon, hcheck⟩, hu, hp, -⟩
    exact ⟨hcolon, hu, hp, hcheck⟩
  · rintro ⟨hcolon, hu, hp, hcheck⟩
    exact ⟨⟨hcolon, hcheck⟩, hu, hp, hcheck⟩

/-- PBKDF2-HMAC-SHA256 of `test-proxy-password`, 1000 iterations. -/
def testProxyKey : Bytes :=
  [108, 216, 140, 233, 89, 174, 36, 162, 90, 225, 187, 37, 247, 228, 111, 206, 170, 181, 119,
    107, 240, 184, 210, 37, 86, 45, 247, 196, 236, 154, 41, 56]

/-- The hashes on the passwords of the two accounts below. -/
def twoPasswords : Hasher where
  hashes :=
    ⟨AuthStore.hashes.sha256, fun password salt iterations length =>
      if length = 32 ∧ salt = AuthStore.salt ∧ iterations = 1000 ∧
        password = AuthStore.secret then AuthStore.secretKey
      else if length = 32 ∧ salt = AuthStore.salt ∧ iterations = 1000 ∧
        password = ascii "test-proxy-password" then testProxyKey
      else List.replicate length 0⟩
  iterations := 1000
  positive := by decide
  bounded := by decide
  keyLength := by
    intro password salt n length
    have hsecret : AuthStore.secretKey.length = 32 := rfl
    have htest : testProxyKey.length = 32 := rfl
    dsimp only
    split
    · rename_i h
      rw [hsecret, h.1]
    · split
      · rename_i h
        rw [htest, h.1]
      · exact List.length_replicate

def plainSalt : Salt := ⟨AuthStore.salt, by decide⟩

/-- The table after one more account with the password `secret123`. -/
def accountsWith (username : Bytes) : ProxyAccounts.Store :=
  (handle twoPasswords (installed twoPasswords plainSalt)
    (.create (some username) (some AuthStore.secret) plainSalt)).2

def rowsWith (username : Bytes) : Option Rows :=
  some ⟨(accountsWith username).proxies.map Proxy.row, false⟩

theorem synced_start {username : Bytes} {s : AuthSequential.Store}
    (h : newAuthStore (rowsWith username) = some s) :
    Synced twoPasswords.hashes (accountsWith username) [] s := by
  obtain ⟨table, ht, -⟩ := collect_proxies (accountsWith username).proxies fun _ => none
  have hfetched : fetched (rowsWith username) = some table := by
    simp [fetched, rowsWith, ht]
  refine ⟨⟨rowsWith username, s, table, h, hfetched, rfl, _, List.Perm.refl _, hfetched⟩, ?_⟩
  intro a b c habc hmany
  have hb : b = [] := by
    have hab := (List.append_eq_nil_iff.mp habc.symm).1
    exact (List.append_eq_nil_iff.mp hab).2
  rw [hb] at hmany
  exact absurd hmany (by decide)

theorem newAuthStore_rowsWith (username : Bytes) :
    ∃ s, newAuthStore (rowsWith username) = some s := by
  obtain ⟨table, ht, -⟩ := collect_proxies (accountsWith username).proxies fun _ => none
  have hfetched : fetched (rowsWith username) = some table := by
    simp [fetched, rowsWith, ht]
  refine ⟨⟨table, 1, [], 0, 0, []⟩, ?_⟩
  simp only [newAuthStore, reload, hfetched]
  rfl

theorem created_logs_in_alice :
    ∃ s, newAuthStore (rowsWith AuthStore.alice) = some s ∧
      ((LogsInHTTP ⟨fun _ => none, fun _ => none⟩
          ⟨[], none, answer twoPasswords.hashes still (elapsed []) s⟩
          AuthStore.alice AuthStore.secret ∧
        LogsInSOCKS5 ⟨fun _ => none, fun _ => none⟩
          ⟨[], none, answer twoPasswords.hashes still (elapsed []) s⟩
          AuthStore.alice AuthStore.secret) ↔
        colon ∉ AuthStore.alice ∧ AuthStore.alice.length ≤ 255 ∧ AuthStore.secret.length ≤ 255 ∧
          strip AuthStore.alice = AuthStore.alice ∧
          twoPasswords.key plainSalt AuthStore.secret =
            twoPasswords.key plainSalt (strip AuthStore.secret)) := by
  obtain ⟨s, hs⟩ := newAuthStore_rowsWith AuthStore.alice
  refine ⟨s, hs, ?_⟩
  have hcreate : handle twoPasswords (installed twoPasswords plainSalt)
      (.create (some AuthStore.alice) (some AuthStore.secret) plainSalt) =
      (.proxy 201 2 AuthStore.alice, accountsWith AuthStore.alice) := by
    decide +kernel
  have hinj : ∀ p q, p ∈ AuthStore.secret :: passwords [] → q ∈ AuthStore.secret :: passwords [] →
      twoPasswords.hashes.sha256 p = twoPasswords.hashes.sha256 q → p = q := by
    intro p q hp hq _
    exact (List.mem_singleton.mp hp).trans (List.mem_singleton.mp hq).symm
  exact created_logs_in_iff twoPasswords ⟨fun _ => none, fun _ => none⟩
    ⟨[], none, fun _ _ => false⟩ plainSalt plainSalt [] [] AuthStore.alice AuthStore.secret
    AuthStore.alice 2 (accountsWith AuthStore.alice) [] s still hcreate
    (fun r hr => absurd hr List.not_mem_nil) (synced_start hs) hinj

/-- The account `a:b` is created, and its header is read as one of the user `a`. -/
theorem colon_locked_out :
    ∃ s, newAuthStore (rowsWith (ascii "a:b")) = some s ∧
      handle twoPasswords (installed twoPasswords plainSalt)
        (.create (some (ascii "a:b")) (some AuthStore.secret) plainSalt) =
          (.proxy 201 2 (ascii "a:b"), accountsWith (ascii "a:b")) ∧
      Synced twoPasswords.hashes (accountsWith (ascii "a:b")) [] s ∧
      ¬LogsInHTTP ⟨fun _ => none, fun _ => none⟩
        ⟨[], none, answer twoPasswords.hashes still (elapsed []) s⟩
        (ascii "a:b") AuthStore.secret := by
  obtain ⟨s, hs⟩ := newAuthStore_rowsWith (ascii "a:b")
  refine ⟨s, hs, by decide +kernel, synced_start hs, ?_⟩
  rw [logsInHTTP_iff]
  exact fun h => absurd h.1 (by decide)

end SplitProxy.ProxyLogin
