import MoneyWay.Auth.Accounts
import MoneyWay.Auth.Families
import MoneyWay.Library.Decimal.Text
import MoneyWay.Library.FormEncoding
import MoneyWay.Library.ReadCommitted.Reads

/-!
# Who gets in

A request shows an access token, and the API reads its user; some requests are for
administrators only. The admin panel has a login and a session cookie of its own, over the
same users.

## Main definitions

- `getCurrentUser`, `getCurrentAdmin` — the checks of the API
- `AdminAuthProvider.login`, `AdminAuthProvider.isAuthenticated` — those of the panel
- `Security.Reliable` — what is relied on of tokens and password hashes

## Main results

- `admins_were_admins` — no history makes anyone an administrator
- `tokens_authenticate` — what the tokens of a pair are good for, and what not
- `registration_lasts` — once registered, nobody is refused at the login
-/

set_option autoImplicit false

namespace MoneyWay.Auth

open Keyed ReadCommitted Python Prog

inductive AccessError where
  | auth (e : Error)
  | forbidden (detail : String)
  deriving DecidableEq, Repr

section Checks

variable (security : Security)

/-- `d` is what the `SELECT` reads. -/
def getCurrentUser (credentials : Option String) (now : Timestamp) (d : Database) :
    Except AccessError User :=
  match credentials with
  | none => .error (.auth (.unauthorized "Authentication required"))
  | some token =>
    match decodeJwtToken security token .access now with
    | .error e => .error (.auth e)
    | .ok payload =>
      match (d.users.find? payload.sub).filter (·.isActive) with
      | none => .error (.auth (.unauthorized "User is not active"))
      | some user => .ok user

def getCurrentAdmin (credentials : Option String) (now : Timestamp) (d : Database) :
    Except AccessError User :=
  match getCurrentUser security credentials now d with
  | .error e => .error e
  | .ok user =>
    if user.role ≠ .admin then .error (.forbidden "Admin access required") else .ok user

namespace AdminAuthProvider

/-- `WHERE email = …` with an address that is not empty, else `WHERE id = …`. -/
def load (email userId : Option String) (d : Database) : Option User :=
  match email.filter (· ≠ "") with
  | some email => d.users.rows.find? fun u => u.email = email
  | none => userId.bind d.users.find?

def isAdmin (u : User) : Bool := u.role = .admin && u.isActive

/-- The id that goes into the session. -/
def login (unicode : Unicode) (username password : String) (d : Database) :
    Except String String :=
  match (load (some (normalizeEmail unicode username)) none d).filter isAdmin with
  | none => .error "Invalid credentials"
  | some user =>
    if security.verifyPassword password user.passwordHash then .ok user.id
    else .error "Invalid credentials"

/-- `request.state.admin_user` for a session with this `admin_user_id`. -/
def isAuthenticated (session : Option String) (d : Database) : Option User :=
  match session.filter (· ≠ "") with
  | none => none
  | some userId => (load none (some userId) d).filter isAdmin

end AdminAuthProvider

/-- The ways to be let in as an administrator. -/
inductive Enters (unicode : Unicode) (d : Database) (user : User) : Prop
  | request {credentials : Option String} {now : Timestamp} :
      getCurrentAdmin security credentials now d = .ok user → Enters unicode d user
  | login {username password : String} :
      AdminAuthProvider.login security unicode username password d = .ok user.id →
      d.users.find? user.id = some user → Enters unicode d user
  | session {session : Option String} :
      AdminAuthProvider.isAuthenticated session d = some user → Enters unicode d user

end Checks

variable {security : Security} {unicode : Unicode} {d : Database} {u user : User}
  {credentials : Option String} {now : Timestamp}

theorem getCurrentUser_ok (h : getCurrentUser security credentials now d = .ok user) :
    ∃ token payload, credentials = some token ∧ security.payload? token = some payload ∧
      payload.type = .access ∧ d.users.find? payload.sub = some user ∧ user.isActive = true := by
  unfold getCurrentUser at h
  split at h
  · cases h
  · next token =>
    split at h
    · cases h
    · next payload hdecode =>
      split at h
      · cases h
      · next user' huser =>
        obtain rfl := Except.ok.inj h
        obtain ⟨hrow, hactive⟩ := Option.filter_eq_some_iff.mp huser
        exact ⟨token, payload, rfl, decodeJwtToken_ok hdecode, decodeJwtToken_type hdecode, hrow,
          hactive⟩

theorem getCurrentAdmin_ok (h : getCurrentAdmin security credentials now d = .ok user) :
    getCurrentUser security credentials now d = .ok user ∧ user.role = .admin := by
  unfold getCurrentAdmin at h
  split at h
  · cases h
  · next user' huser =>
    split at h
    · cases h
    · next hrole =>
      obtain rfl := Except.ok.inj h
      exact ⟨huser, not_not.mp hrole⟩

namespace AdminAuthProvider

theorem mem_of_load {email userId : Option String} (h : load email userId d = some u) :
    u ∈ d.users.rows := by
  unfold load at h
  split at h
  · exact List.mem_of_find?_eq_some h
  · obtain ⟨id, -, hu⟩ := Option.bind_eq_some_iff.mp h
    exact Table.mem_of_find? hu

theorem login_ok {username password id : String}
    (h : login security unicode username password d = .ok id) :
    ∃ u ∈ d.users.rows, u.id = id ∧ isAdmin u = true := by
  unfold login at h
  split at h
  · cases h
  · next u hu =>
    obtain ⟨hload, hadmin⟩ := Option.filter_eq_some_iff.mp hu
    split at h
    · exact ⟨u, mem_of_load hload, Except.ok.inj h, hadmin⟩
    · cases h

theorem isAuthenticated_some {session : Option String}
    (h : isAuthenticated session d = some u) : u ∈ d.users.rows ∧ isAdmin u = true := by
  unfold isAuthenticated at h
  split at h
  · cases h
  · obtain ⟨hload, hadmin⟩ := Option.filter_eq_some_iff.mp h
    exact ⟨mem_of_load hload, hadmin⟩

end AdminAuthProvider

/-- Whoever gets in is a stored, active administrator. -/
theorem Enters.isAdmin (h : Enters security unicode d user) :
    d.users.find? user.id = some user ∧ user.role = .admin ∧ user.isActive = true := by
  have hadmin {u : User} (hu : AdminAuthProvider.isAdmin u = true) :
      u.role = .admin ∧ u.isActive = true := by
    simpa [AdminAuthProvider.isAdmin] using hu
  cases h with
  | request hget =>
    obtain ⟨huser, hrole⟩ := getCurrentAdmin_ok hget
    obtain ⟨token, payload, -, -, -, hrow, hactive⟩ := getCurrentUser_ok huser
    exact ⟨Table.find?_of_mem (Table.mem_of_find? hrow), hrole, hactive⟩
  | login hlogin hrow =>
    obtain ⟨u, hu, hid, hu'⟩ := AdminAuthProvider.login_ok hlogin
    obtain rfl := Table.eq_of_key hu (Table.mem_of_find? hrow) hid
    exact ⟨hrow, hadmin hu'⟩
  | session hsession =>
    obtain ⟨hu, hu'⟩ := AdminAuthProvider.isAuthenticated_some hsession
    exact ⟨Table.find?_of_mem hu, hadmin hu'⟩

section Histories

variable {start : Shared signature} {late early tr : List (Transition signature)}
  {x : Transition signature} {w : World signature}

/-- What a whole history leaves of the users. -/
theorem accounts_kept_from_start (hr : Run (service security unicode) start tr w) :
    AccountsKept start.db w.shared.db := by
  induction hr with
  | nil => exact .refl start.db
  | @snoc tr w w' a hr hstep ih =>
    have hsafe := valid_accounts.run trivial hr fun _ _ _ _ _ => trivial
    cases (hsafe.step valid_accounts (fun _ _ _ => trivial) hstep).2 with
    | inl he =>
      rw [he]
      exact ih
    | inr hlink => exact ih.trans hlink.guar.1

/-- Whoever is let in as an administrator, in any state of any history, has been one from the
start, with the same address and password. -/
theorem admins_were_admins (hr : Run (service security unicode) start tr w)
    (h : Enters security unicode w.shared.db user) :
    ∃ u₀ ∈ start.db.users.rows, user.account = u₀.account ∧ u₀.role = .admin ∧
      u₀.isActive = true := by
  obtain ⟨hrow, hrole, hactive⟩ := h.isAdmin
  have hkept := accounts_kept_from_start hr
  cases hstart : start.db.users.find? user.id with
  | none =>
    obtain ⟨hnew, -⟩ := hkept.new user.id user hrow hstart
    rw [hrole] at hnew
    cases hnew
  | some u₀ =>
    obtain ⟨u', hu', he⟩ := hkept.kept user.id u₀ hstart
    obtain rfl : user = u' := Option.some.inj (hrow.symm.trans hu')
    exact ⟨u₀, Table.mem_of_find? hstart, he, (User.role_of_account he).symm.trans hrole,
      (User.isActive_of_account he).symm.trans hactive⟩

/-! ## Tokens -/

/-- The end of the second before. -/
def wholeSeconds (t : ℤ) : ℤ := t / 10 ^ 6 * 10 ^ 6

/-- What is relied on of the libraries: a token says what has been put into it, with its times
in whole seconds; from the one to the other it is in time; and a password matches its hash. -/
structure Security.Reliable (security : Security) : Prop where
  decode : ∀ p, security.payload? (security.encode p) =
    some { p with iat := wholeSeconds p.iat, exp := wholeSeconds p.exp }
  timely : ∀ p now, p.iat ≤ now → now < p.exp → security.timely p now = true
  verify : ∀ salt password,
    security.verifyPassword password (security.hashPassword salt password) = true

theorem wholeSeconds_le (t : ℤ) : wholeSeconds t ≤ t := by
  unfold wholeSeconds
  omega

theorem lt_wholeSeconds {t now : ℤ} (h : now + 10 ^ 6 ≤ t) : now < wholeSeconds t := by
  unfold wholeSeconds
  omega

theorem decodeJwtToken_wrong_type {token : String} {p : Payload} {tokenType : TokenType}
    (hp : security.payload? token = some p) (htype : p.type ≠ tokenType) (now : Timestamp) :
    ∃ e, decodeJwtToken security token tokenType now = .error e := by
  unfold decodeJwtToken
  rw [hp]
  cases htime : security.timely p now with
  | false => exact ⟨_, by simp only [Option.filter_some, htime, Bool.false_eq_true, if_false]; rfl⟩
  | true => exact ⟨_, by simp only [Option.filter_some, htime, if_true, if_pos htype]; rfl⟩

/-- A pair from a registration, a login or a rotation: its access token is accepted, in any
later state, for as long as the settings say since the request began to read, less the second
that times are cut by; whenever it is accepted it is for the account of the request; and
neither token passes for the other kind. -/
theorem tokens_authenticate (hsec : security.Reliable)
    (hr : Run (service security unicode) start (late ++ x :: early) w) {s : Session signature}
    {pair : TokenPair} (hc : x.Commits s (.tokens pair)) :
    ∃ settings u q, s.job.settings? = some settings ∧ s.job.Admits security unicode u ∧
      s.txn.snapshots[0]? = some q ∧
      (∀ now, x.after.shared.ext.now ≤ now →
        now + 10 ^ 6 ≤ q.ext.now + minutes settings.accessTokenExpireMinutes →
        ∃ u', getCurrentUser security (some pair.accessToken) now w.shared.db = .ok u') ∧
      (∀ now u', getCurrentUser security (some pair.accessToken) now w.shared.db = .ok u' →
        u'.account = u.account) ∧
      (∀ now, ∃ e, decodeJwtToken security pair.accessToken .refresh now = .error e) ∧
      ∀ now, ∃ e, decodeJwtToken security pair.refreshToken .access now = .error e := by
  obtain ⟨⟨settings, u, q, hg⟩, he⟩ := granted_of_commits hr (by simp) hc
  obtain ⟨⟨jti, iat, hfirst, hlast, haccess⟩, ⟨jti', iat', -, -, hrefresh⟩⟩ := hg.pair
  have hstored : x.after.shared.db.users.find? u.id = some u := by
    rw [he]
    exact hg.stored
  obtain ⟨u', hu', hkept⟩ := (accounts_kept hr).1.kept u.id u hstored
  have hpayload := hsec.decode ⟨u.id, .access, jti, iat,
    iat + minutes settings.accessTokenExpireMinutes⟩
  have hpayload' := hsec.decode ⟨u.id, .refresh, jti', iat',
    iat' + days settings.refreshTokenExpireDays⟩
  rw [← haccess] at hpayload
  rw [← hrefresh] at hpayload'
  refine ⟨settings, u, q, hg.asked, hg.admits, hg.read, fun now hnow hexp => ⟨u', ?_⟩,
    fun now v hv => ?_, decodeJwtToken_wrong_type hpayload (by simp),
    decodeJwtToken_wrong_type hpayload' (by simp)⟩
  · have hnow : iat ≤ now := by
      rw [he] at hnow
      exact hlast.trans hnow
    have htimely := hsec.timely ⟨u.id, .access, jti, wholeSeconds iat,
      wholeSeconds (iat + minutes settings.accessTokenExpireMinutes)⟩ now
      ((wholeSeconds_le iat).trans hnow)
      (lt_wholeSeconds (hexp.trans (Int.add_le_add_right hfirst _)))
    have hdecode : decodeJwtToken security pair.accessToken .access now = .ok ⟨u.id, .access, jti,
        wholeSeconds iat, wholeSeconds (iat + minutes settings.accessTokenExpireMinutes)⟩ := by
      unfold decodeJwtToken
      rw [hpayload]
      simp only [Option.filter_some, htimely, if_true, ne_eq, not_true_eq_false, if_false]
    have hactive := (User.isActive_of_account hkept).trans hg.isActive
    simp only [getCurrentUser, hdecode, hu', Option.filter_some, hactive, if_true]
  · obtain ⟨token, p, htoken, hp, -, hrow, -⟩ := getCurrentUser_ok hv
    obtain rfl := Option.some.inj htoken
    rw [hpayload] at hp
    obtain rfl := Option.some.inj hp
    obtain rfl : u' = v := Option.some.inj (hu'.symm.trans hrow)
    exact hkept

end Histories

/-! ## Refused logins -/

def invalidLogin : Error := .unauthorized "Invalid email or password"

/-- Why a login has been refused: it has seen no account with its address and password, or an
account that was not active, or gone, a moment later. -/
inductive Refused (security : Security) (unicode : Unicode) (request : LoginRequest)
    (x : Txn signature) : Prop
  | password {q : Shared signature} : q ∈ x.snapshots →
      (∀ u, q.db.users.rows.find? (fun u => u.email = normalizeEmail unicode request.email) =
        some u → security.verifyPassword request.password u.passwordHash = false) →
      Refused security unicode request x
  | inactive {q q' : Shared signature} {u : User} : q ∈ x.snapshots → q' ∈ x.snapshots →
      u ∈ q.db.users.rows → u.email = normalizeEmail unicode request.email →
      (∀ u', q'.db.users.find? u.id = some u' → u'.isActive = false) →
      Refused security unicode request x

section

open Auth.Sql

variable {x : Txn signature}

/-- Making tokens does not fail like that. -/
theorem ends_issueTokenPair (settings : Settings) (client : Client) (user : User)
    (familyId : Option String) : (issueTokenPair security settings client user familyId).Ends
      (fun _ _ => True) (fun e _ => e ≠ invalidLogin) x := by
  have hinsert (r : RefreshToken) (pair : TokenPair) (x : Txn signature) :
      (exec (insertRefreshToken r) >>= fun _ => pure pair : Handler TokenPair).Ends
        (fun _ _ => True) (fun e _ => e ≠ invalidLogin) x := by
    refine .bind (.exec (fun s blocked e he => ?_) fun _ _ _ _ => trivial)
    unfold insertRefreshToken at he
    split at he
    · cases he
      simp [invalidLogin]
    · split at he
      · cases he
        simp [invalidLogin]
      · cases he
  refine .bind (.now fun _ => .uuid fun _ => .bind (.now fun _ => .uuid fun _ => ?_))
  refine .now fun _ => .uuid fun _ => ?_
  dsimp only
  split
  · exact hinsert _ _ _
  · exact .uuid fun _ => hinsert _ _ _

theorem ends_authenticateUser (request : LoginRequest) :
    (authenticateUser security unicode request).Ends
      (fun found x => found.filter (·.isActive) = none → Refused security unicode request x)
      (fun e _ => e ≠ invalidLogin) {} := by
  refine .bind (.exec (fun s blocked e he => by cases he) fun q blocked eff hq => ?_)
  obtain rfl := Except.ok.inj hq
  split
  · next hnone =>
    have hnone : q.db.users.rows.find? (fun u => u.email = normalizeEmail unicode request.email) =
        none := hnone
    refine fun _ => .password (q := q) (by simp [Txn.executed]) fun u hu => ?_
    rw [hnone] at hu
    cases hu
  · next u hfound =>
    have hfound : q.db.users.rows.find? (fun u => u.email = normalizeEmail unicode request.email) =
        some u := hfound
    split
    · next hverify =>
      refine fun _ => .password (q := q) (by simp [Txn.executed]) fun u' hu' => ?_
      rw [hfound] at hu'
      rw [← Option.some.inj hu']
      exact hverify
    · refine .now fun now => .exec (fun s blocked e he => ?_) fun q' blocked eff hq => ?_
      · unfold updateLastLogin at he
        split at he <;> cases he
      · intro hnone
        refine .inactive (q := q) (u := u) (by simp [Txn.executed])
          (by simp [Txn.executed] : q' ∈ _) (List.mem_of_find?_eq_some hfound)
          (by simpa using List.find?_some hfound) fun u' hu' => ?_
        have hq : updateLastLogin u.id now blocked q'.db = .ok eff := hq
        obtain ⟨rfl, hgone⟩ | ⟨v, hv, rfl⟩ := updateLastLogin_cases hq
        · rw [hgone] at hu'
          cases hu'
        · rw [hv] at hu'
          obtain rfl := Option.some.inj hu'
          simpa using hnone

/-- What a job has read when it fails as a login does. -/
def FailsAs (security : Security) (unicode : Unicode) (j : Job) (e : Error) (x : Txn signature) :
    Prop :=
  ∀ settings client request, j = .login settings client request → e = invalidLogin →
    Refused security unicode request x

theorem ends_program (j : Job) : (program security unicode j).Ends (fun _ _ => True)
    (FailsAs security unicode j) {} := by
  by_cases hj : ∃ settings client request, j = .login settings client request
  · obtain ⟨settings, client, request, rfl⟩ := hj
    have hfails {e : Error} {x : Txn signature} (he : e ≠ invalidLogin) :
        FailsAs security unicode (.login settings client request) e x :=
      fun _ _ _ _ he' => absurd he' he
    refine .bind (.bind ((ends_authenticateUser request).mono (fun found x hx => ?_)
      fun e x he => hfails he))
    split
    · next hnone =>
      intro settings' client' request' hj _
      cases hj
      exact hx hnone
    · next user huser =>
      exact (ends_issueTokenPair settings client user none).mono (fun _ _ _ => trivial)
        fun e x he => hfails he
  · exact .of_forall _ (fun _ _ => trivial)
      (fun e x settings client request he => absurd ⟨settings, client, request, he⟩ hj) {}

end

section Histories

variable {start : Shared signature} {late early tr : List (Transition signature)}
  {x : Transition signature} {w : World signature}

/-- What the states after a transition of a history are like. -/
theorem kept_of_mem_states (hs : DistinctEmails start.db)
    (hr : Run (service security unicode) start (late ++ x :: early) w) {q : Shared signature}
    (hq : q ∈ states late) : AccountsKept x.after.shared.db q.db ∧ DistinctEmails q.db := by
  obtain ⟨y, hy, rfl⟩ := mem_states.mp hq
  obtain ⟨late₁, late₂, rfl⟩ := List.append_of_mem hy
  rw [List.append_assoc, List.cons_append] at hr
  have hr' := hr.cut.1
  exact ⟨(accounts_kept hr').1, emails_unique hs hr'⟩

/-- Once a registration has committed, its account is there for good, and it is the only one
with its address: no further registration of the address commits, and no login with its
address and password that is started later is refused. -/
theorem registration_lasts (hsec : security.Reliable) (hs : DistinctEmails start.db)
    (hr : Run (service security unicode) start (late ++ x :: early) w) {s : Session signature}
    {pair : TokenPair} (hc : x.Commits s (.tokens pair)) {settings : Settings} {client : Client}
    {payload : RegisterRequest} (hj : s.job = .register settings client payload) :
    (∃ u ∈ w.shared.db.users.rows, u.email = normalizeEmail unicode payload.email ∧
      security.verifyPassword payload.password u.passwordHash = true ∧ u.role = .user ∧
      u.isActive = true ∧
      ∀ u' ∈ w.shared.db.users.rows, u'.email = normalizeEmail unicode payload.email → u' = u) ∧
    (∀ y ∈ late, ∀ t pair' settings' client' payload', y.Commits t (.tokens pair') →
      t.job = .register settings' client' payload' →
      normalizeEmail unicode payload'.email ≠ normalizeEmail unicode payload.email) ∧
    ∀ t ∈ w.sessions.rows, (∃ y ∈ late, ∃ j, y.action = .start t.id j) →
      ∀ settings' client' request, t.job = .login settings' client' request →
        normalizeEmail unicode request.email = normalizeEmail unicode payload.email →
        request.password = payload.password → t.prog ≠ .throw invalidLogin := by
  obtain ⟨⟨_, u, q, hg⟩, he⟩ := granted_of_commits hr (by simp) hc
  have hstored : x.after.shared.db.users.find? u.id = some u := by
    rw [he]
    exact hg.stored
  have hadmits := hg.admits
  have hnew := hg.new
  rw [hj] at hadmits hnew
  obtain ⟨hemail, salt, hhash⟩ := hadmits
  have hverify : security.verifyPassword payload.password u.passwordHash = true := by
    rw [hhash]
    exact hsec.verify salt payload.password
  have hrole : u.role = .user := by
    have hkept : AccountsKept x.before.shared.db x.after.shared.db := by
      have hpost :=
        (valid_accounts.commits trivial hr (fun _ _ _ _ _ => trivial) (by simp) hc rfl).1
      rw [he]
      exact hpost.1.accountsKept
    exact (hkept.new u.id u hstored (hnew settings client payload rfl)).1
  refine ⟨?_, fun y hy t pair' settings' client' payload' hct hjt hsame => ?_,
    fun t ht hlate settings' client' request hjt hsame hpassword hthrow => ?_⟩
  · obtain ⟨u', hu', hkept⟩ := (accounts_kept hr).1.kept u.id u hstored
    have hmem := Table.mem_of_find? hu'
    have hemail' := (User.email_of_account hkept).trans hemail
    refine ⟨u', hmem, hemail', ?_, (User.role_of_account hkept).trans hrole,
      (User.isActive_of_account hkept).trans hg.isActive, fun v hv hve => ?_⟩
    · rw [User.passwordHash_of_account hkept]
      exact hverify
    · exact emails_unique hs hr v hv u' hmem (hve.trans hemail'.symm)
  · -- the second account would be there together with the first one
    obtain ⟨late₁, late₂, rfl⟩ := List.append_of_mem hy
    rw [List.append_assoc, List.cons_append] at hr
    obtain ⟨hr', hstep⟩ := hr.cut
    have hry := hr'.snoc hstep
    obtain ⟨⟨_, v, q', hg'⟩, he'⟩ := granted_of_commits hry List.mem_cons_self hct
    have hadmits' := hg'.admits
    rw [hjt] at hadmits'
    have hfree := hg'.new settings' client' payload' hjt
    obtain ⟨u₁, hu₁, hkept₁⟩ := (accounts_kept hr').1.kept u.id u hstored
    have hrow : Run (service security unicode) start ((y :: late₂) ++ x :: early) y.after := hry
    obtain ⟨u₂, hu₂, hkept₂⟩ := (accounts_kept hrow).1.kept u.id u hstored
    have hv : y.after.shared.db.users.find? v.id = some v := by
      rw [he']
      exact hg'.stored
    have heq := emails_unique hs hry u₂ (Table.mem_of_find? hu₂) v (Table.mem_of_find? hv)
      (((User.email_of_account hkept₂).trans hemail).trans (hsame.symm.trans hadmits'.1.symm))
    rw [← heq, User.id_of_account hkept₂, hu₁] at hfree
    cases hfree
  · have hrefused := hr.ends_of_throws (fun j _ => ends_program j) ht hthrow rfl settings' client'
      request hjt rfl
    have hread := hr.snapshots_since ht hlate
    -- the account in a state that the login has read
    have haccount : ∀ q ∈ t.txn.snapshots, ∃ v ∈ q.db.users.rows, v.account = u.account ∧
        ∀ v' ∈ q.db.users.rows, v'.email = normalizeEmail unicode request.email → v' = v := by
      intro q hq
      obtain ⟨hkept, hdistinct⟩ := kept_of_mem_states hs hr (hread q hq)
      obtain ⟨v, hv, hva⟩ := hkept.kept u.id u hstored
      have hmem := Table.mem_of_find? hv
      refine ⟨v, hmem, hva, fun v' hv' he' => hdistinct v' hv' v hmem ?_⟩
      exact he'.trans (hsame.trans ((User.email_of_account hva).trans hemail).symm)
    cases hrefused with
    | @password q hq hno =>
      obtain ⟨v, hv, hva, honly⟩ := haccount q hq
      have hve : v.email = normalizeEmail unicode request.email :=
        ((User.email_of_account hva).trans hemail).trans hsame.symm
      obtain ⟨v', hv'⟩ := Option.isSome_iff_exists.mp
        (List.find?_isSome (p := fun u : User => u.email = normalizeEmail unicode request.email)
          |>.mpr ⟨v, hv, by simpa using hve⟩)
      have hfalse := hno v' hv'
      rw [honly v' (List.mem_of_find?_eq_some hv') (by simpa using List.find?_some hv'),
        User.passwordHash_of_account hva, hpassword, hverify] at hfalse
      cases hfalse
    | @inactive q q' v hq hq' hv hve hno =>
      obtain ⟨v₁, -, hva₁, honly⟩ := haccount q hq
      obtain ⟨v₂, hv₂, hva₂, -⟩ := haccount q' hq'
      rw [honly v hv hve] at hno
      have hid : v₂.id = v₁.id := (User.id_of_account hva₂).trans (User.id_of_account hva₁).symm
      have hfalse := hno v₂ (hid ▸ Table.find?_of_mem hv₂)
      rw [User.isActive_of_account hva₂, hg.isActive] at hfalse
      cases hfalse

end Histories

/-! ## A registration and a login -/

/-- Tokens that anybody can read and write. -/
def plainTokens : Security where
  encode p := String.ofList (FormEncoding.encode [
    ("sub", p.sub),
    ("type", if p.type = .access then "access" else "refresh"),
    ("jti", p.jti),
    ("iat", String.ofList (Decimal.signedText (wholeSeconds p.iat))),
    ("exp", String.ofList (Decimal.signedText (wholeSeconds p.exp)))])
  payload? token :=
    match FormEncoding.decode token.toList with
    | some [(_, sub), (_, type), (_, jti), (_, iat), (_, exp)] =>
      match Decimal.intOf? iat.toList, Decimal.intOf? exp.toList with
      | some iat, some exp =>
        some ⟨sub, if type = "access" then .access else .refresh, jti, iat, exp⟩
      | _, _ => none
    | _ => none
  timely p now := p.iat ≤ now && now < p.exp
  hashToken token := token
  hashPassword _ password := password
  verifyPassword password hash := password = hash

theorem plainTokens_reliable : plainTokens.Reliable where
  decode p := by
    obtain ⟨sub, type, jti, iat, exp⟩ := p
    cases type <;>
      simp only [plainTokens, String.toList_ofList, FormEncoding.decode_encode,
        Decimal.intOf?_signedText] <;> rfl
  timely p now hiat hexp := by simp [plainTokens, hiat, hexp]
  verify salt password := by simp [plainTokens]

/-- The one user is an administrator. -/
def administered : Shared signature where
  db := {
    users := (Table.empty _).put
      { alice with id := "root", email := "root@example.com", role := .admin }
    refreshTokens := .empty _ }
  ext := { now := 0, checks := [] }

theorem distinctEmails_administered : DistinctEmails administered.db := by
  intro u hu u' hu' _
  simp only [administered, Table.put, Table.empty, putRow, List.mem_singleton] at hu hu'
  rw [hu, hu']

/-- Bob registers. -/
def signUp (i : ℕ) : List (Action signature) :=
  .start i (.register settings browser ⟨"Bob@Example.com", "secret", none, none⟩) :: .run i ::
    .give i "salt" :: .give i "bob" :: .run i :: issue i "a1" "r1" "i1" ++ .give i "family" ::
    runs i 1

/-- The address and the password of the registration that commits. -/
def registered? (x : Transition signature) : Option (String × String) :=
  match x.commit? with
  | some ⟨_, .register _ _ payload, .done (.tokens _), _⟩ => some (payload.email, payload.password)
  | _ => none

theorem commits_of_registered {x : Transition signature} {email password : String}
    (h : registered? x = some (email, password)) : ∃ s pair settings client payload,
      x.Commits s (.tokens pair) ∧ s.job = .register settings client payload ∧
        payload.email = email ∧ payload.password = password := by
  unfold registered? at h
  split at h
  · next id settings client payload pair txn hcommit =>
    obtain ⟨v, hc⟩ := Transition.commits_of_commit? hcommit
    have hv : Result.tokens pair = v := Prog.done.inj hc.2.2
    subst hv
    obtain ⟨hemail, hpassword⟩ := Prod.mk.inj (Option.some.inj h)
    exact ⟨_, pair, settings, client, payload, hc, rfl, hemail, hpassword⟩
  · cases h

/-- After Bob's registration the panel lets in the one who has been an administrator before. -/
theorem admins_were_admins_root : ∃ tr w user, Run (service plainTokens .ascii) administered tr w ∧
    Enters plainTokens .ascii w.shared.db user ∧
    ∃ u₀ ∈ administered.db.users.rows, user.account = u₀.account ∧ u₀.role = .admin ∧
      u₀.isActive = true := by
  obtain ⟨tr, w, hr, -, hw⟩ := Run.exists_of_trace (service plainTokens .ascii) administered
    (signUp 0 ++ [.run 0]) (fun r => (r.2.shared.db.users.rows.length,
      AdminAuthProvider.isAuthenticated (some "root") r.2.shared.db))
    (b := (2, some { alice with id := "root", email := "root@example.com", role := .admin }))
    (by decide +kernel)
  have henters : Enters plainTokens .ascii w.shared.db _ := .session (Prod.mk.inj hw).2
  exact ⟨tr, w, _, hr, henters, admins_were_admins hr henters⟩

/-- When a transition has happened, when its session has begun to read, and how many minutes its
access token is good for. -/
def times (x : Transition signature) : List ℤ :=
  match x.commit? with
  | some s => x.after.shared.ext.now :: (s.txn.snapshots[0]?.map fun q => q.ext.now).toList ++
      (s.job.settings?.map Settings.accessTokenExpireMinutes).toList
  | none => []

/-- Bob's access token is accepted at once, and is Bob's. -/
theorem tokens_authenticate_bob : ∃ tr w token user,
    Run (service plainTokens .ascii) administered tr w ∧
    getCurrentUser plainTokens (some token) 0 w.shared.db = .ok user ∧
    user.email = "bob@example.com" := by
  obtain ⟨late, x, early, w, hr, -, -, hx, -⟩ := Run.exists_of_trace_cons
    (service plainTokens .ascii) administered (signUp 0) (.run 0) []
    (fun x => (registered? x, times x)) (fun _ _ => ())
    (b := (some ("Bob@Example.com", "secret"), [0, 0, 15])) (c := ()) (by decide +kernel)
  obtain ⟨hregistered, htimes⟩ := Prod.mk.inj hx
  obtain ⟨s, pair, _, _, payload, hc, hj, hemail, -⟩ := commits_of_registered hregistered
  obtain ⟨settings, u, q, hsettings, hadmits, hq, haccepted, honly, -⟩ :=
    tokens_authenticate plainTokens_reliable hr hc
  simp only [times, hc.commit?, hq, hsettings, Option.map_some, Option.toList_some,
    List.cons_append, List.nil_append, List.cons.injEq, and_true] at htimes
  obtain ⟨hnow, hstart, hminutes⟩ := htimes
  obtain ⟨user, huser⟩ := haccepted 0 (by rw [hnow]) (by rw [hstart, hminutes]; decide)
  rw [hj] at hadmits
  refine ⟨_, w, pair.accessToken, user, hr, huser, ?_⟩
  rw [User.email_of_account (honly 0 user huser), hadmits.1, hemail]
  decide +kernel

/-- The address and the password of the login that session `i` is. -/
def loginOf? (i : ℕ) (w : World signature) : Option (String × String) :=
  match w.sessions.find? i with
  | some ⟨_, .login _ _ request, _, _⟩ => some (request.email, request.password)
  | _ => none

theorem session_of_login {i : ℕ} {w : World signature} {email password : String}
    (h : loginOf? i w = some (email, password)) : ∃ t ∈ w.sessions.rows, t.id = i ∧
      ∃ settings client, t.job = .login settings client ⟨email, password⟩ := by
  unfold loginOf? at h
  split at h
  · next id settings client request prog txn hfind =>
    obtain ⟨email', password'⟩ := request
    cases h
    exact ⟨_, Table.mem_of_find? hfind, Table.key_of_find? hfind, settings, client, rfl⟩
  · cases h

/-- Bob logs in after his registration. -/
theorem registration_lasts_bob : ∃ tr w, Run (service plainTokens .ascii) administered tr w ∧
    (∃ u ∈ w.shared.db.users.rows, u.email = "bob@example.com" ∧ u.role = .user) ∧
    ∃ t ∈ w.sessions.rows, t.prog ≠ .throw invalidLogin := by
  obtain ⟨late, x, early, w, hr, -, hlate, hx, hw⟩ := Run.exists_of_trace_cons
    (service plainTokens .ascii) administered (signUp 0) (.run 0)
    (.start 1 (.login settings browser ⟨"bob@example.com", "secret"⟩) :: runs 1 3) registered?
    (fun _ w => loginOf? 1 w) (b := some ("Bob@Example.com", "secret"))
    (c := some ("bob@example.com", "secret")) (by decide +kernel)
  obtain ⟨s, pair, _, _, payload, hc, hj, hemail, hpassword⟩ := commits_of_registered hx
  obtain ⟨⟨u, hu, hue, -, hrole, -⟩, -, hlogin⟩ :=
    registration_lasts plainTokens_reliable distinctEmails_administered hr hc hj
  have haddress :
      normalizeEmail .ascii "bob@example.com" = normalizeEmail .ascii payload.email := by
    rw [hemail]
    decide +kernel
  obtain ⟨t, ht, hid, settings, client, hjob⟩ := session_of_login hw
  have hstarted : ∃ y ∈ late, ∃ j, y.action = .start t.id j := by
    have hmem : Action.start 1 (Job.login Auth.settings browser ⟨"bob@example.com", "secret"⟩) ∈
        late.map Transition.action := by
      rw [hlate]
      simp
    obtain ⟨y, hy, he⟩ := List.mem_map.mp hmem
    exact ⟨y, hy, _, hid ▸ he⟩
  have haccepted := hlogin t ht hstarted settings client _ hjob haddress hpassword.symm
  refine ⟨_, w, hr, ⟨u, hu, ?_, hrole⟩, t, ht, haccepted⟩
  rw [hue, ← haddress]
  decide +kernel

end MoneyWay.Auth
